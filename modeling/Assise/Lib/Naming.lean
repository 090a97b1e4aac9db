import Mathlib.Data.List.Basic
import Mathlib.Data.List.Induction
import Mathlib.Logic.Function.Basic
import Mathlib.Tactic.Common

-- Naming graphs. Names are walked from a root, and a graph is a tree where it is reached when no node has two names
-- and the root has none.
namespace Lib.Naming

open Option Function

variable {Node Name : Type}

abbrev Edges (Node Name : Type) := Node → Name → Option Node

def walk (edges : Edges Node Name) (start : Node) (names : List Name) : Option Node := names.foldlM edges start

@[simp] theorem walk_nil (edges : Edges Node Name) (start : Node) : walk edges start [] = some start := rfl

theorem walk_cons (edges : Edges Node Name) (start : Node) (name : Name) (rest : List Name) :
    walk edges start (name :: rest) = (edges start name).bind (walk edges · rest) := rfl

theorem walk_append (edges : Edges Node Name) (start : Node) (front back : List Name) :
    walk edges start (front ++ back) = (walk edges start front).bind (walk edges · back) :=
  List.foldlM_append

variable {last start root target node : Node} {front parent : List Name} {name : Name} {value : Option Node}

variable {edges : Edges Node Name} {names : List Name}

theorem walk_split {back : List Name}
    (walked : walk edges start (front ++ back) = some last) :
    ∃ middle, walk edges start front = some middle ∧ walk edges middle back = some last := by
  rwa [walk_append,bind_eq_some_iff] at walked

theorem walk_join {middle : Node} {back : List Name}
    (first : walk edges start front = some middle) (second : walk edges middle back = some last) :
    walk edges start (front ++ back) = some last := by
  rw [walk_append,first]
  exact second

theorem walk_snoc {middle : Node}
    (first : walk edges start front = some middle) (named : edges middle name = some last) :
    walk edges start (front ++ [name]) = some last :=
  walk_join first (by rw [walk_cons,named]; rfl)

structure Single (edges : Edges Node Name) (root : Node) : Prop where
  top : ∀ node name, edges node name ≠ some root
  once : ∀ {node node' name name' target}, edges node name = some target → edges node' name' = some target →
    node = node' ∧ name = name'

theorem Single.walk_unique (single : Single edges root)
    {left right : List Name} (leftWalk : walk edges root left = some target)
    (rightWalk : walk edges root right = some target) : left = right := by
  -- Peel the last name off both: it is the only one the target has.
  induction left using List.reverseRecOn generalizing right target with
  | nil =>
    cases leftWalk
    rcases List.eq_nil_or_concat' right with rfl | ⟨front,name,rfl⟩
    · rfl
    · obtain ⟨middle,_,last⟩ := walk_split rightWalk
      rw [walk_cons,bind_eq_some_iff] at last
      obtain ⟨_,named,same⟩ := last
      cases same
      exact absurd named (single.top middle name)
  | append_singleton front name ih =>
    obtain ⟨middle,first,last⟩ := walk_split leftWalk
    rw [walk_cons,bind_eq_some_iff] at last
    obtain ⟨_,named,same⟩ := last
    cases same
    rcases List.eq_nil_or_concat' right with rfl | ⟨front',name',rfl⟩
    · cases rightWalk
      exact absurd named (single.top middle name)
    · obtain ⟨middle',first',last'⟩ := walk_split rightWalk
      rw [walk_cons,bind_eq_some_iff] at last'
      obtain ⟨_,named',same'⟩ := last'
      cases same'
      obtain ⟨rfl,rfl⟩ := single.once named named'
      rw [ih first first']

def Uses (edges : Edges Node Name) (start : Node) (names : List Name) (node : Node) (name : Name) : Prop :=
  ∃ front back, names = front ++ name :: back ∧ walk edges start front = some node

theorem Single.uses_begins (single : Single edges root)
    (walked : walk edges root parent = some node)
    (uses : Uses edges root names node name) : parent ++ [name] <+: names := by
  obtain ⟨front,back,rfl,same⟩ := uses
  cases single.walk_unique walked same
  exact ⟨back,by simp⟩

theorem bound_of_uses {last : Node}
    (walked : walk edges start names = some last) (uses : Uses edges start names node name) :
    ∃ target, edges node name = some target := by
  obtain ⟨front,back,rfl,first⟩ := uses
  obtain ⟨middle,first',later⟩ := walk_split walked
  cases first.symm.trans first'
  rw [walk_cons,bind_eq_some_iff] at later
  obtain ⟨target,named,_⟩ := later
  exact ⟨target,named⟩

variable [DecidableEq Node]

def cut (edges : Edges Node Name) (node : Node) : Edges Node Name := update edges node fun _ => none

theorem cut_some {gone : Node}
    (named : cut edges gone node name = some target) : node ≠ gone ∧ edges node name = some target := by
  unfold cut at named
  by_cases same : node = gone
  · subst same
    rw [update_self] at named
    cases named
  · rw [update_of_ne same] at named
    exact ⟨same,named⟩

theorem walk_cut {gone : Node} (lost : ∀ names, walk edges root names ≠ some gone)
    (names : List Name) : walk (cut edges gone) root names = walk edges root names := by
  induction names using List.reverseRecOn with
  | nil => rfl
  | append_singleton front name ih =>
    rw [walk_append,walk_append,ih]
    cases walked : walk edges root front with
    | none => rfl
    | some node =>
      have other : node ≠ gone := fun same => lost front (same ▸ walked)
      simp only [bind_some,walk_cons,cut,update_of_ne other]
      cases edges node name <;> rfl

theorem Single.cut (single : Single edges root) (gone : Node) :
    Single (cut edges gone) root :=
  ⟨fun node name named => single.top node name (cut_some named).2,
    fun left right => single.once (cut_some left).2 (cut_some right).2⟩

variable [DecidableEq Name]

def rebind (edges : Edges Node Name) (node : Node) (name : Name) (value : Option Node) : Edges Node Name :=
  update edges node (update (edges node) name value)

@[simp] theorem rebind_self (edges : Edges Node Name) (node : Node) (name : Name) (value : Option Node) :
    rebind edges node name value node name = value := by
  simp [rebind]

theorem rebind_other {node' : Node} {name' : Name}
    (other : ¬(node' = node ∧ name' = name)) : rebind edges node name value node' name' = edges node' name' := by
  unfold rebind
  by_cases same : node' = node
  · subst same
    rw [update_self,update_of_ne fun equal => other ⟨rfl,equal⟩]
  · rw [update_of_ne same]

theorem walk_rebind
    (avoids : ¬Uses edges start names node name) :
    walk (rebind edges node name value) start names = walk edges start names := by
  induction names generalizing start with
  | nil => rfl
  | cons first rest ih =>
    have here : rebind edges node name value start first = edges start first := by
      apply rebind_other
      rintro ⟨rfl,rfl⟩
      exact avoids ⟨[],rest,rfl,rfl⟩
    rw [walk_cons,walk_cons,here]
    cases named : edges start first with
    | none => rfl
    | some next =>
      apply ih
      rintro ⟨front,back,rfl,walked⟩
      refine avoids ⟨first :: front,back,rfl,?_⟩
      rw [walk_cons,named]
      exact walked

section
variable (single : Single edges root)
include single

theorem Single.walk_rebind
    (walked : walk edges root parent = some node)
    (apart : ¬parent ++ [name] <+: names) : walk (rebind edges node name value) root names = walk edges root names :=
  Naming.walk_rebind fun uses => apart (single.uses_begins walked uses)

theorem Single.unbind (node : Node) (name : Name) :
    Single (rebind edges node name none) root := by
  have old : ∀ {node' name' target}, rebind edges node name none node' name' = some target →
      edges node' name' = some target := by
    intro node' name' target named
    by_cases same : node' = node ∧ name' = name
    · obtain ⟨rfl,rfl⟩ := same
      rw [rebind_self] at named
      cases named
    · rwa [rebind_other same] at named
  exact ⟨fun node' name' named => single.top node' name' (old named),
    fun left right => single.once (old left) (old right)⟩

theorem Single.bind (node : Node)
    (name : Name) (other : target ≠ root) (fresh : ∀ node' name', edges node' name' ≠ some target) :
    Single (rebind edges node name (some target)) root := by
  have cases' : ∀ {node' name' target'}, rebind edges node name (some target) node' name' = some target' →
      (node' = node ∧ name' = name ∧ target' = target) ∨ (target' ≠ target ∧ edges node' name' = some target') := by
    intro node' name' target' named
    by_cases same : node' = node ∧ name' = name
    · obtain ⟨rfl,rfl⟩ := same
      rw [rebind_self] at named
      cases named
      exact Or.inl ⟨rfl,rfl,rfl⟩
    · rw [rebind_other same] at named
      exact Or.inr ⟨fun equal => fresh node' name' (equal ▸ named),named⟩
  constructor
  · intro node' name' named
    rcases cases' named with ⟨_,_,same⟩ | ⟨_,old⟩
    · exact other same.symm
    · exact single.top node' name' old
  · intro node₁ node₂ name₁ name₂ target' left right
    rcases cases' left with ⟨rfl,rfl,same⟩ | ⟨apart,old⟩ <;> rcases cases' right with ⟨rfl,rfl,same'⟩ | ⟨apart',old'⟩
    · exact ⟨rfl,rfl⟩
    · exact absurd same apart'
    · exact absurd same' apart
    · exact single.once old old'

theorem Single.lost
    (named : edges node name = some target) (names : List Name) :
    walk (rebind edges node name none) root names ≠ some target := by
  intro walked
  rcases List.eq_nil_or_concat' names with rfl | ⟨front,last,rfl⟩
  · cases walked
    exact single.top node name named
  · obtain ⟨middle,_,later⟩ := walk_split walked
    rw [walk_cons,bind_eq_some_iff] at later
    obtain ⟨_,step,same⟩ := later
    cases same
    by_cases here : middle = node ∧ last = name
    · obtain ⟨rfl,rfl⟩ := here
      rw [rebind_self] at step
      cases step
    · rw [rebind_other here] at step
      exact here (single.once step named)

end

theorem walk_bind (walked : walk edges start names = some last) (free : edges node name = none) :
    walk (rebind edges node name value) start names = some last := by
  rw [walk_rebind fun uses => ?_]
  · exact walked
  · obtain ⟨_,bound⟩ := bound_of_uses walked uses
    rw [free] at bound
    cases bound

theorem Single.walk_unbind_leaf (single : Single edges root)
    (found : walk edges root parent = some node)
    (named : edges node name = some target) (leaf : ∀ name, edges target name = none)
    (walked : walk edges root names = some last) (other : last ≠ target) :
    walk (rebind edges node name none) root names = some last := by
  rw [single.walk_rebind found]
  · exact walked
  · rintro ⟨rest,rfl⟩
    obtain ⟨middle,first,later⟩ := walk_split walked
    cases (walk_snoc found named).symm.trans first
    cases rest with
    | nil =>
      cases later
      exact other rfl
    | cons next more =>
      rw [walk_cons,leaf] at later
      cases later

theorem Single.walk_move {node' : Node} (single : Single edges root)
    {parent' names : List Name} {name' : Name} (found : walk edges root parent = some node)
    (named : edges node name = some target) (found' : walk edges root parent' = some node')
    (notBelow : ∀ rest, walk edges target rest ≠ some node') (free : rebind edges node name none node' name' = none)
    (walked : walk edges root names = some last) :
    ∃ names', walk (rebind (rebind edges node name none) node' name' (some target)) root names' = some last := by
  by_cases through : parent ++ [name] <+: names
  · obtain ⟨rest,rfl⟩ := through
    obtain ⟨middle,first,later⟩ := walk_split walked
    cases (walk_snoc found named).symm.trans first
    have above : walk (rebind edges node name none) root parent' = some node' := by
      rw [single.walk_rebind found,found']
      rintro ⟨below,rfl⟩
      obtain ⟨middle,first',later'⟩ := walk_split found'
      cases (walk_snoc found named).symm.trans first'
      exact notBelow below later'
    -- Below the target the walk does not come back to the place the target had.
    have below : walk (rebind edges node name none) target rest = some last := by
      rw [Naming.walk_rebind]
      · exact later
      · rintro ⟨front,back,rfl,again⟩
        have twice := single.walk_unique found (walk_join (walk_snoc found named) again)
        have long := congrArg List.length twice
        simp only [List.length_append,List.length_singleton] at long
        omega
    refine ⟨parent' ++ [name'] ++ rest,walk_join (walk_snoc (walk_bind above free) (rebind_self ..)) ?_⟩
    exact walk_bind below free
  · refine ⟨names,walk_bind ?_ free⟩
    rw [single.walk_rebind found through]
    exact walked

end Lib.Naming
