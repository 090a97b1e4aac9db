import Mathlib.Data.List.Basic

-- Binary trees by their in-order listing. Positions count from the leftmost item, whatever the shape of the tree.
namespace Lib.SearchTree

open List

inductive NodeTree (α : Type) where
  | nil
  | node (left : NodeTree α) (item : α) (right : NodeTree α)
deriving DecidableEq, Repr

namespace NodeTree

variable {α : Type}

def listing : NodeTree α → List α
  | nil => []
  | node left item right => left.listing ++ item :: right.listing

def size : NodeTree α → Nat
  | nil => 0
  | node left _ right => left.size + 1 + right.size

def depth : NodeTree α → Nat → Nat
  | nil,_ => 0
  | node left _ right,i =>
    if i < left.size then left.depth i + 1
    else if i = left.size then 0
    else right.depth (i - left.size - 1) + 1

-- The walk from the root by the side on which the key lies: position and item of the last node met. `base` counts the
-- items to the left.
def search (side : α → Ordering) : NodeTree α → Nat → Option (Nat × α) → Option (Nat × α)
  | nil,_,last => last
  | node left item right,base,_ =>
    match side item with
    | .eq => some (base + left.size,item)
    | .lt => left.search side base (some (base + left.size,item))
    | .gt => right.search side (base + left.size + 1) (some (base + left.size,item))

def modifyAt (f : α → α) : NodeTree α → Nat → NodeTree α
  | nil,_ => nil
  | node left item right,i =>
    if i < left.size then node (left.modifyAt f i) item right
    else if i = left.size then node left (f item) right
    else node left item (right.modifyAt f (i - left.size - 1))

-- A new leaf between the items at `i - 1` and `i`, where a search that ends there would put it.
def insertAt (new : α) : NodeTree α → Nat → NodeTree α
  | nil,_ => node nil new nil
  | node left item right,i =>
    if i ≤ left.size then node (left.insertAt new i) item right
    else node left item (right.insertAt new (i - left.size - 1))

def join : NodeTree α → NodeTree α → NodeTree α
  | nil,after => after
  | node left item right,after => node left item (right.join after)

def eraseAt : NodeTree α → Nat → NodeTree α
  | nil,_ => nil
  | node left item right,i =>
    if i < left.size then node (left.eraseAt i) item right
    else if i = left.size then left.join right
    else node left item (right.eraseAt (i - left.size - 1))

@[simp] theorem listing_nil : (nil : NodeTree α).listing = [] := rfl

@[simp] theorem listing_node (left right : NodeTree α) (item : α) :
    (node left item right).listing = left.listing ++ item :: right.listing := rfl

@[simp] theorem length_listing (t : NodeTree α) : t.listing.length = t.size := by
  induction t with
  | nil => rfl
  | node left item right ihLeft ihRight =>
    simp only [listing,length_append,length_cons,ihLeft,ihRight,size]
    omega

theorem listing_join (t after : NodeTree α) : (t.join after).listing = t.listing ++ after.listing := by
  induction t with
  | nil => rfl
  | node left item right _ ih => simp [join,ih]

variable {root : α} {right left : NodeTree α}

theorem node_split {before after : List α}
    (split : (node left root right).listing = before ++ after) :
    (∃ early, left.listing = before ++ early ∧ after = early ++ root :: right.listing) ∨
      ∃ more, before = left.listing ++ root :: more ∧ right.listing = more ++ after := by
  rcases List.append_eq_append_iff.mp split with ⟨more,rfl,tail⟩ | ⟨early,whole,tail⟩
  · cases more with
    | nil => exact Or.inl ⟨[],by simp,tail.symm⟩
    | cons first more =>
      injection tail with same tail
      subst same
      exact Or.inr ⟨more,rfl,tail⟩
  · exact Or.inl ⟨early,whole,tail⟩

-- The three changes, by what stands before the position and behind it.
section Split
variable {t : NodeTree α} {before after : List α} {item : α}

theorem node_at (split : (node left root right).listing = before ++ item :: after) :
    (∃ early, left.listing = before ++ item :: early ∧ after = early ++ root :: right.listing ∧ before.length < left.size) ∨
      (before = left.listing ∧ item = root ∧ after = right.listing) ∨
      ∃ more, before = left.listing ++ root :: more ∧ right.listing = more ++ item :: after := by
  rcases node_split split with ⟨early,whole,tail⟩ | behind
  · cases early with
    | nil =>
      cases tail
      exact Or.inr (Or.inl ⟨by rw [whole,append_nil],rfl,rfl⟩)
    | cons first early =>
      cases tail
      refine Or.inl ⟨early,whole,rfl,?_⟩
      rw [←length_listing,whole]
      simp
  · exact Or.inr (Or.inr behind)

theorem length_behind (left : NodeTree α) (root : α) (more : List α) :
    ¬ (left.listing ++ root :: more).length < left.size ∧ (left.listing ++ root :: more).length ≠ left.size ∧
      (left.listing ++ root :: more).length - left.size - 1 = more.length := by
  simp only [length_append,length_cons,length_listing]
  omega

theorem modifyAt_split (f : α → α) (split : t.listing = before ++ item :: after) :
    (t.modifyAt f before.length).listing = before ++ f item :: after := by
  induction t generalizing before after with
  | nil => simp at split
  | node left root right ihLeft ihRight =>
    unfold modifyAt
    rcases node_at split with ⟨early,whole,rfl,less⟩ | ⟨rfl,rfl,rfl⟩ | ⟨more,rfl,whole⟩
    · rw [if_pos less,listing_node,ihLeft whole]
      simp
    · rw [length_listing,if_neg (Nat.lt_irrefl _),if_pos rfl,listing_node]
    · obtain ⟨low,other,rest⟩ := length_behind left root more
      rw [if_neg low,if_neg other,rest,listing_node,ihRight whole]
      simp

theorem insertAt_split (new : α) (split : t.listing = before ++ after) :
    (t.insertAt new before.length).listing = before ++ new :: after := by
  induction t generalizing before after with
  | nil =>
    obtain ⟨rfl,rfl⟩ := List.append_eq_nil_iff.mp split.symm
    rfl
  | node left root right ihLeft ihRight =>
    unfold insertAt
    rcases node_split split with ⟨early,whole,rfl⟩ | ⟨more,rfl,whole⟩
    · have count : left.size = before.length + early.length := by rw [←length_listing,whole,length_append]
      rw [if_pos (by omega),listing_node,ihLeft whole]
      simp
    · obtain ⟨low,other,rest⟩ := length_behind left root more
      rw [if_neg (by omega),rest,listing_node,ihRight whole]
      simp

theorem eraseAt_split (split : t.listing = before ++ item :: after) :
    (t.eraseAt before.length).listing = before ++ after := by
  induction t generalizing before after with
  | nil => simp at split
  | node left root right ihLeft ihRight =>
    unfold eraseAt
    rcases node_at split with ⟨early,whole,rfl,less⟩ | ⟨rfl,rfl,rfl⟩ | ⟨more,rfl,whole⟩
    · rw [if_pos less,listing_node,ihLeft whole]
      simp
    · rw [length_listing,if_neg (Nat.lt_irrefl _),if_pos rfl,listing_join]
    · obtain ⟨low,other,rest⟩ := length_behind left root more
      rw [if_neg low,if_neg other,rest,listing_node,ihRight whole]
      simp

end Split

-- Which side of a gap the search for it ends on: the item behind the gap is met last if it hangs
-- deeper than the one before it.
def EndsAbove (t : NodeTree α) (k : Nat) : Prop := k < t.size ∧ (k = 0 ∨ t.depth (k - 1) < t.depth k)

instance (t : NodeTree α) (k : Nat) : Decidable (t.EndsAbove k) := by
  unfold EndsAbove
  infer_instance

section Search
variable {side : α → Ordering}

theorem search_position {t : NodeTree α} {base : Nat} {last : Option (Nat × α)} {i : Nat} {item : α}
    (found : t.search side base last = some (i,item)) :
    last = some (i,item) ∨ ∃ before after, t.listing = before ++ item :: after ∧ i = base + before.length := by
  induction t generalizing base last with
  | nil => exact Or.inl found
  | node left root right ihLeft ihRight =>
    have here : ∃ before after, (node left root right).listing = before ++ root :: after ∧
        base + left.size = base + before.length := ⟨left.listing,right.listing,rfl,by simp⟩
    unfold search at found
    split at found
    · cases found
      exact Or.inr here
    · rcases ihLeft found with same | ⟨before,after,whole,place⟩
      · cases same
        exact Or.inr here
      · exact Or.inr ⟨before,after ++ root :: right.listing,by simp [whole],place⟩
    · rcases ihRight found with same | ⟨before,after,whole,place⟩
      · cases same
        exact Or.inr here
      · exact Or.inr ⟨left.listing ++ root :: before,after,by simp [whole],by simp; omega⟩

theorem search_hit (side : α → Ordering) {t : NodeTree α} {below above : List α} {item : α} (base : Nat) (last : Option (Nat × α))
    (split : t.listing = below ++ item :: above) (hit : side item = .eq) (low : ∀ x ∈ below, side x = .gt)
    (high : ∀ x ∈ above, side x = .lt) : t.search side base last = some (base + below.length,item) := by
  induction t generalizing below above base last with
  | nil => simp at split
  | node left root right ihLeft ihRight =>
    unfold search
    rcases node_at split with ⟨early,whole,rfl,_⟩ | ⟨rfl,rfl,rfl⟩ | ⟨more,rfl,whole⟩
    · rw [high root (by simp)]
      exact ihLeft _ _ whole low (fun x member => high x (by simp [member]))
    · simp [hit]
    · rw [low root (by simp)]
      dsimp only
      rw [ihRight _ _ whole (fun x member => low x (by simp [member])) high]
      simp only [length_append,length_cons,length_listing,Option.some.injEq,Prod.mk.injEq,and_true]
      omega

theorem depth_root (left right : NodeTree α) (root : α) : (node left root right).depth left.size = 0 := by
  simp [depth]

theorem endsAbove_left {k : Nat} (inside : k < left.size) :
    (node left root right).EndsAbove k ↔ left.EndsAbove k := by
  have early : k - 1 < left.size := by omega
  have bound : k < (node left root right).size := by simp only [size]; omega
  simp only [EndsAbove,depth,inside,early,bound,if_true,true_and,Nat.add_lt_add_iff_right]

theorem endsAbove_right {k : Nat} (behind : 0 < k) :
    (node left root right).EndsAbove (left.size + 1 + k) ↔ right.EndsAbove k := by
  have rest : left.size + 1 + k - left.size - 1 = k := by omega
  have rest' : left.size + 1 + k - 1 - left.size - 1 = k - 1 := by omega
  have bound : left.size + 1 + k < (node left root right).size ↔ k < right.size := by simp only [size]; omega
  have positive : left.size + 1 + k = 0 ↔ k = 0 := by omega
  simp only [EndsAbove,depth,bound,rest,rest',positive]
  rw [if_neg (by omega),if_neg (by omega),if_neg (by omega),if_neg (by omega),Nat.add_lt_add_iff_right]

theorem search_gap (side : α → Ordering) {t : NodeTree α} {below above : List α} (base : Nat) (last : Option (Nat × α)) (filled : t ≠ nil)
    (split : t.listing = below ++ above) (low : ∀ x ∈ below, side x = .gt) (high : ∀ x ∈ above, side x = .lt) :
    (t.EndsAbove below.length → ∃ item rest, above = item :: rest ∧
      t.search side base last = some (base + below.length,item)) ∧
    (¬ t.EndsAbove below.length → ∃ front item, below = front ++ [item] ∧
      t.search side base last = some (base + front.length,item)) := by
  induction t generalizing below above base last with
  | nil => exact absurd rfl filled
  | node left root right ihLeft ihRight =>
    unfold search
    -- The root lies behind the gap or before it; the walk goes on in the subtree that holds the gap.
    rcases node_split split with ⟨early,whole,rfl⟩ | ⟨more,rfl,whole⟩
    · have count : left.size = below.length + early.length := by rw [←length_listing,whole,length_append]
      have lows : ∀ x ∈ early, side x = .lt := fun x member => high x (by simp [member])
      rw [high root (by simp)]
      dsimp only
      cases early with
      | nil =>
        cases left with
        | nil =>
          obtain rfl : below = [] := by simpa using whole.symm
          have ends : (node nil root right).EndsAbove 0 := ⟨by simp only [size]; omega,Or.inl rfl⟩
          exact ⟨fun _ => ⟨root,right.listing,rfl,rfl⟩,fun other => absurd ends other⟩
        | node a x b =>
          have border : ¬ (node a x b).EndsAbove below.length := fun ends => by
            have inside := ends.1
            simp only [length_nil] at count
            omega
          have ends : ¬ (node (node a x b) root right).EndsAbove below.length := by
            have last : below.length = (node a x b).size := count.symm
            rintro ⟨_,first | deeper⟩
            · simp only [first,size] at last
              omega
            · rw [last,depth_root] at deeper
              exact Nat.not_lt_zero _ deeper
          exact ⟨fun other => absurd other ends,fun _ => (ihLeft base _ (by simp) whole low (by simp)).2 border⟩
      | cons first early =>
        have inside : below.length < left.size := by simp [count]
        rw [endsAbove_left inside]
        obtain ⟨above,under⟩ := ihLeft base (some (base + left.size,root)) (by rintro rfl; simp at whole) whole low lows
        refine ⟨fun ends => ?_,under⟩
        obtain ⟨item,rest,shape,found⟩ := above ends
        cases shape
        exact ⟨_,_,rfl,found⟩
    · have count : (left.listing ++ root :: more).length = left.size + 1 + more.length := by simp; omega
      rw [count,low root (by simp)]
      dsimp only
      cases right with
      | nil =>
        obtain ⟨rfl,rfl⟩ := List.append_eq_nil_iff.mp whole.symm
        have ends : ¬ (node left root nil).EndsAbove (left.size + 1 + 0) := fun other => by
          have inside := other.1
          simp only [size] at inside
          omega
        exact ⟨fun other => absurd other ends,fun _ => ⟨left.listing,root,rfl,by simp [search]⟩⟩
      | node a x b =>
        obtain ⟨above,under⟩ := ihRight (base + left.size + 1) (some (base + left.size,root)) (by simp) whole
          (fun x member => low x (by simp [member])) high
        have place : ∀ n, base + left.size + 1 + n = base + (left.size + 1 + n) := by omega
        cases more with
        | nil =>
          have ends : (node left root (node a x b)).EndsAbove (left.size + 1 + 0) := by
            refine ⟨by simp only [size]; omega,Or.inr ?_⟩
            simp only [depth]
            rw [if_neg (by omega),if_pos (by omega),if_neg (by omega),if_neg (by omega)]
            omega
          have inner : (node a x b).EndsAbove 0 := ⟨by simp only [size]; omega,Or.inl rfl⟩
          refine ⟨fun _ => ?_,fun other => absurd ends other⟩
          obtain ⟨item,rest,shape,found⟩ := above inner
          exact ⟨item,rest,shape,by rw [found]; simp [place]⟩
        | cons first more =>
          rw [endsAbove_right (by simp)]
          refine ⟨fun ends => ?_,fun ends => ?_⟩
          · obtain ⟨item,rest,shape,found⟩ := above ends
            exact ⟨item,rest,shape,by rw [found,place]⟩
          · obtain ⟨front,item,shape,found⟩ := under ends
            exact ⟨left.listing ++ root :: front,item,by simp [shape],by
              rw [found,place]
              simp
              omega⟩

end Search

end NodeTree

end Lib.SearchTree
