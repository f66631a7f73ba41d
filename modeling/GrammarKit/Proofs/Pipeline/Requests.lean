import GrammarKit.Tree

/-!
Requests to a pipeline. Whatever is asked of a pipeline, and in whatever order, each request gets
its share of the list that the pipeline stands for: one item or all that are left, from the front of
what the requests before it have left over. Main statement: the replies are made of these shares,
the shares together are the front of the list, and a pipeline whose list is used up stays so.
-/
namespace GrammarKit

namespace Pipeline

variable {α : Type}

def Request.share (l : List α) : Request → List α
  | .next | .first => l.take 1
  | .all | .join _ => l

def Request.reply (render : α → Text) (share : List α) : Request → Reply α
  | .next | .first => .item share.head?
  | .all => .items share
  | .join separator => .text (Text.join separator (share.map render))

/-- The shares of requests in turn. -/
def shares (l : List α) : List Request → List (List α)
  | [] => []
  | r :: rest => r.share l :: shares (l.drop (r.share l).length) rest

/-- A request gets its share of the list, and the rest of the list is left. -/
theorem answer_toList (render : α → Text) (p : Pipeline α) (r : Request) :
    (p.answer render r).1 = r.reply render (r.share p.toList) ∧
      (p.answer render r).2.toList = p.toList.drop (r.share p.toList).length := by
  obtain ⟨hitem, htail⟩ := p.takeOne_toList
  obtain ⟨hitems, hnone⟩ := p.takeAll_toList
  cases r with
  | next | first =>
    constructor
    · simp [answer, Request.reply, Request.share, hitem, List.head?_take]
    · rw [answer, Request.share, htail]
      cases p.toList <;> rfl
  | all =>
    constructor
    · simp [answer, Request.reply, Request.share, hitems]
    · simp [answer, Request.share, hnone]
  | join separator =>
    constructor
    · simp [answer, Request.reply, Request.share, hitems]
    · simp [answer, Request.share, hnone]

theorem Request.share_append_drop (l : List α) (r : Request) :
    r.share l ++ l.drop (r.share l).length = l := by
  cases r with
  | next | first => cases l <;> rfl
  | all | join => simp [Request.share]

/-- Requests in turn get their shares, and the list behind all of them is left. -/
theorem answerAll_toList (render : α → Text) (p : Pipeline α) (requests : List Request) :
    (p.answerAll render requests).1 =
        List.zipWith (fun r share => r.reply render share) requests (shares p.toList requests) ∧
      (shares p.toList requests).flatten ++ (p.answerAll render requests).2.toList = p.toList := by
  induction requests generalizing p with
  | nil => exact ⟨rfl, rfl⟩
  | cons r rest ih =>
    obtain ⟨hreply, hleft⟩ := answer_toList render p r
    obtain ⟨hreplies, hrest⟩ := ih (p.answer render r).2
    rw [hleft] at hreplies hrest
    constructor
    · rw [shares, List.zipWith_cons_cons, ← hreply, ← hreplies]
      rfl
    · rw [shares, List.flatten_cons, List.append_assoc]
      calc r.share p.toList ++ _ = r.share p.toList ++ p.toList.drop (r.share p.toList).length :=
            congrArg _ hrest
        _ = p.toList := r.share_append_drop p.toList

theorem answerAll_append (render : α → Text) (p : Pipeline α) (before after : List Request) :
    (p.answerAll render (before ++ after)).1 = (p.answerAll render before).1 ++
      ((p.answerAll render before).2.answerAll render after).1 := by
  induction before generalizing p with
  | nil => rfl
  | cons r rest ih => exact congrArg _ (ih (p.answer render r).2)

theorem shares_nil (requests : List Request) :
    shares ([] : List α) requests = requests.map fun _ => [] := by
  induction requests with
  | nil => rfl
  | cons r rest ih => cases r <;> exact congrArg _ ih

/-- A pipeline that stands for the empty list has nothing to hand out any more. -/
theorem answerAll_of_nil (render : α → Text) {p : Pipeline α} (hp : p.toList = [])
    (requests : List Request) :
    (p.answerAll render requests).1 = requests.map fun r => r.reply render [] := by
  rw [(answerAll_toList render p requests).1, hp, shares_nil, List.zipWith_map_right,
    List.zipWith_self]

end Pipeline

namespace Tree

mutual

/-- The nodes of a tree in preorder: a node, then the nodes under each of its children. -/
def nodes : Tree → List Tree
  | .token _ => []
  | .node rule tag children span => .node rule tag children span :: nodesOf children

def nodesOf : List Tree → List Tree
  | [] => []
  | c :: rest => nodes c ++ nodesOf rest

end

mutual

theorem toList_walk : ∀ t : Tree, t.walk.toList = t.nodes
  | .token _ => rfl
  | .node rule tag children span => by
    rw [walk, Pipeline.toList_concat, flatMap_walksOf children]
    rfl

theorem flatMap_walksOf : ∀ trees : List Tree,
    (walksOf trees).flatMap Pipeline.toList = nodesOf trees
  | [] => by rw [walksOf, nodesOf, List.flatMap_nil]
  | .token _ :: rest => by
    rw [walksOf, flatMap_walksOf rest]
    rfl
  | .node rule tag children span :: rest => by
    rw [walksOf, List.flatMap_cons, Pipeline.toList_concat, flatMap_walksOf children,
      flatMap_walksOf rest]
    rfl

end

end Tree

/-- Requests to a pipeline get the items of its list. The replies are made of the shares of the
requests, the shares in turn and what the pipeline still holds are the list, and once the shares
have used the list up no later request gets an item. In particular all that is handed out of the
walk of a tree are its nodes in preorder. -/
theorem Pipeline.requests_follow_list :
    (∀ {α : Type} (render : α → Text) (p : Pipeline α) (requests : List Request),
      (p.answerAll render requests).1 =
        List.zipWith (fun r share => r.reply render share) requests (shares p.toList requests) ∧
      (shares p.toList requests).flatten ++ (p.answerAll render requests).2.toList = p.toList ∧
      ((shares p.toList requests).flatten = p.toList → ∀ later,
        (p.answerAll render (requests ++ later)).1 =
          (p.answerAll render requests).1 ++ later.map fun r => r.reply render [])) ∧
    ∀ tree : Tree, tree.walk.drain = tree.nodes := by
  constructor
  · intro α render p requests
    obtain ⟨hreplies, hleft⟩ := answerAll_toList render p requests
    refine ⟨hreplies, hleft, ?_⟩
    intro hall later
    have hnil : (p.answerAll render requests).2.toList = [] := by
      rw [hall] at hleft
      exact List.append_right_eq_self.mp hleft
    rw [answerAll_append, answerAll_of_nil render hnil]
  · intro tree
    rw [drain, tree.walk.takeAll_toList.1, tree.toList_walk]

def Pipeline.tens : Pipeline Nat :=
  .append (.map (· * 10) (.filter (fun n => n % 2 == 0) (.items [1, 2, 3, 4]))) (.items [5])

/-- After one item and all others there is none left, for whatever requests come then. -/
theorem Pipeline.requests_follow_list_tens :
    tens.toList = [20, 40, 5] ∧
      (tens.answerAll (fun _ => []) [.next, .all]).1 = [.item (some 20), .items [40, 5]] ∧
      (shares tens.toList [.next, .all]).flatten = tens.toList ∧
      (tens.answerAll (fun _ => []) ([.next, .all] ++ [.first, .all])).1 =
        [.item (some 20), .items [40, 5], .item none, .items []] := by
  obtain ⟨hreplies, -, hlater⟩ := requests_follow_list.1 (fun _ => []) tens [.next, .all]
  refine ⟨rfl, hreplies, rfl, ?_⟩
  rw [hlater rfl [.first, .all], hreplies]
  rfl

end GrammarKit
