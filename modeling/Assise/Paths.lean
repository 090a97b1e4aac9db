import Assise.Directory
import Mathlib.Data.List.DropRight

-- Path strings: how LibFS takes the next name off a path, and where it takes the path of the parent directory to end.
namespace Assise.Paths
open Directory List Option

def slash : UInt8 := 47
def digitZero : UInt8 := 48
def maxPath : Nat := 1024

-- A name of `DIRSIZ` bytes or more is cut, and then has no terminator.
def getNextName (path : CString) : Option (CString × CString) :=
  let path := path.dropWhile (· == slash)
  if path = [] then none
  else some ((path.takeWhile (· != slash)).take dirsiz,(path.dropWhile (· != slash)).dropWhile (· == slash))

-- From the end of the string: the first loop skips digits `'0'`, where a terminator was meant. The byte before the
-- string is taken not to be a slash. `none` is NULL, which leaves both buffers unset.
def getParentPath (path : CString) : Option (CString × CString) :=
  let back := path.reverse.dropWhile (· == digitZero)
  let back := back.dropWhile (· == slash)
  let back := back.dropWhile (· != slash)
  if back = [] then none
  else
    let parentPath := (back.dropWhile (· == slash)).reverse
    (getNextName (path.drop parentPath.length)).map fun (name,_) => (parentPath,name)

def componentsUpTo : Nat → CString → List CString
  | 0,_ => []
  | fuel + 1,path =>
    match getNextName path with
    | none => []
    | some (name,rest) => name :: componentsUpTo fuel rest

def components (path : CString) : List CString := componentsUpTo path.length path

variable {name rest path parentPath : CString}

theorem getNextName_shorter (next : getNextName path = some (name,rest)) :
    rest.length < path.length := by
  unfold getNextName at next
  obtain ⟨some,same⟩ := ite_none_left_eq_some.mp next
  cases same
  have trimmed : (path.dropWhile (· == slash)).length ≤ path.length := (dropWhile_sublist _).length_le
  cases shape : path.dropWhile (· == slash) with
  | nil => exact absurd shape some
  | cons c more =>
    -- The first byte left is not a slash, so the second loop takes it.
    have first : (c != slash) = true := by
      have head := head?_dropWhile_not (· == slash) path
      rw [shape] at head
      simpa using head
    rw [shape] at trimmed
    have later : ((c :: more).dropWhile (· != slash)).length ≤ more.length := by
      rw [dropWhile_cons,if_pos first]
      exact (dropWhile_sublist _).length_le
    have last : (((c :: more).dropWhile (· != slash)).dropWhile (· == slash)).length ≤
        ((c :: more).dropWhile (· != slash)).length := (dropWhile_sublist _).length_le
    simp only [length_cons] at trimmed
    omega

theorem componentsUpTo_enough {fuel : Nat} (enough : path.length ≤ fuel) :
    componentsUpTo fuel path = components path := by
  have stable : ∀ {fuel fuel' : Nat} {path : CString}, path.length ≤ fuel → path.length ≤ fuel' →
      componentsUpTo fuel path = componentsUpTo fuel' path := by
    intro fuel
    induction fuel with
    | zero =>
      intro fuel' path short _
      cases length_eq_zero_iff.mp (Nat.le_zero.mp short)
      cases fuel' <;> rfl
    | succ fuel ih =>
      intro fuel' path short short'
      cases fuel' with
      | zero =>
        cases length_eq_zero_iff.mp (Nat.le_zero.mp short')
        rfl
      | succ fuel' =>
        simp only [componentsUpTo]
        cases next : getNextName path with
        | none => rfl
        | some pair =>
          have less := getNextName_shorter next
          simp only [List.cons.injEq,true_and]
          exact ih (by omega) (by omega)
  exact stable enough (le_refl _)

theorem components_none (done : getNextName path = none) : components path = [] := by
  unfold components
  cases path with
  | nil => rfl
  | cons c more =>
    rw [length_cons,componentsUpTo,done]

theorem components_some (next : getNextName path = some (name,rest)) :
    components path = name :: components rest := by
  have less := getNextName_shorter next
  unfold components
  cases path with
  | nil => simp at less
  | cons c more =>
    simp only [length_cons] at less ⊢
    rw [componentsUpTo,next]
    exact congrArg (name :: ·) (componentsUpTo_enough (by omega))

theorem rest_nil (next : getNextName path = some (name,rest)) :
    rest = [] ↔ components rest = [] := by
  constructor
  · rintro rfl
    rfl
  · intro nothing
    unfold getNextName at next
    obtain ⟨_,same⟩ := ite_none_left_eq_some.mp next
    cases same
    generalize (path.dropWhile (· == slash)).dropWhile (· != slash) = tail at nothing ⊢
    cases shape : tail.dropWhile (· == slash) with
    | nil => rfl
    | cons c more =>
      have first : (c == slash) = false := by
        have head := head?_dropWhile_not (· == slash) tail
        rw [shape] at head
        simpa using head
      have again : getNextName (c :: more) ≠ none := by
        unfold getNextName
        simp [first]
      rw [shape] at nothing
      cases next : getNextName (c :: more) with
      | none => exact absurd next again
      | some pair =>
        rw [components_some next] at nothing
        cases nothing

theorem dropWhile_append_slash (front back : CString) :
    (front ++ slash :: back).dropWhile (· == slash) =
      if front.dropWhile (· == slash) = [] then back.dropWhile (· == slash)
      else front.dropWhile (· == slash) ++ slash :: back := by
  rw [dropWhile_append]
  simp only [List.isEmpty_iff]
  split
  · rw [dropWhile_cons,if_pos (by simp)]
  · rfl

theorem span_append_slash (front back : CString) :
    (front ++ slash :: back).takeWhile (· != slash) = front.takeWhile (· != slash) ∧
      (front ++ slash :: back).dropWhile (· != slash) = front.dropWhile (· != slash) ++ slash :: back := by
  induction front with
  | nil => simp
  | cons c more ih =>
    by_cases stop : c = slash
    · subst stop
      simp
    · simp [stop,ih.1,ih.2]

theorem getNextName_dropWhile (path : CString) : getNextName (path.dropWhile (· == slash)) = getNextName path := by
  unfold getNextName
  rw [dropWhile_idempotent]

theorem components_congr {path' : CString} (same : getNextName path = getNextName path') :
    components path = components path' := by
  cases next : getNextName path with
  | none => rw [components_none next,components_none (same ▸ next)]
  | some pair =>
    have next' : getNextName path' = some (pair.1,pair.2) := same ▸ next
    rw [components_some next,components_some next']

theorem components_append_slash (front back : CString) :
    components (front ++ slash :: back) = components front ++ components back := by
  induction length : front.length using Nat.strong_induction_on generalizing front with
  | _ n ih =>
    cases next : getNextName front with
    | none =>
      have slashes : front.dropWhile (· == slash) = [] := by
        unfold getNextName at next
        by_contra some
        simp [some] at next
      rw [components_none next,nil_append]
      apply components_congr
      rw [←getNextName_dropWhile,dropWhile_append_slash,if_pos slashes,getNextName_dropWhile]
    | some pair =>
      obtain ⟨name,rest⟩ := pair
      have less := getNextName_shorter next
      have shape := next
      unfold getNextName at shape
      obtain ⟨some,same⟩ := ite_none_left_eq_some.mp shape
      cases same
      obtain ⟨taken,left⟩ := span_append_slash (front.dropWhile (· == slash)) back
      have longer : (front.dropWhile (· == slash)) ++ slash :: back ≠ [] := by simp
      have whole : getNextName (front ++ slash :: back) =
          Option.some (((front.dropWhile (· == slash)).takeWhile (· != slash)).take dirsiz,
            ((front.dropWhile (· == slash)).dropWhile (· != slash) ++ slash :: back).dropWhile (· == slash)) := by
        unfold getNextName
        dsimp only
        rw [dropWhile_append_slash,if_neg some,if_neg longer,taken,left]
      rw [components_some whole,components_some next,cons_append,dropWhile_append_slash]
      split
      · rename_i ended
        rw [ended,components_congr (getNextName_dropWhile back)]
        rfl
      · rw [ih _ (length ▸ less) _ rfl]

theorem getParentPath_shape (split : getParentPath path = some (parentPath,name)) :
    ∃ tail rest, path = parentPath ++ slash :: tail ∧ getNextName tail = some (name,rest) := by
  unfold getParentPath at split
  dsimp only at split
  obtain ⟨notNull,next⟩ := ite_none_left_eq_some.mp split
  obtain ⟨⟨name',rest⟩,found,same⟩ := map_eq_some_iff.mp next
  generalize shape : ((path.reverse.dropWhile (· == digitZero)).dropWhile (· == slash)).dropWhile (· != slash) = back
    at notNull found same
  cases same
  obtain ⟨more,rfl⟩ : ∃ more, back = slash :: more := by
    have head := head?_dropWhile_not (· != slash) ((path.reverse.dropWhile (· == digitZero)).dropWhile (· == slash))
    rw [shape] at head
    cases back with
    | nil => exact absurd rfl notNull
    | cons c more => exact ⟨more,by simpa using head⟩
  have within : slash :: more <:+ path.reverse := by
    rw [←shape]
    exact (dropWhile_suffix _).trans ((dropWhile_suffix _).trans (dropWhile_suffix _))
  -- The slashes before the parent's end, one of them at least.
  obtain ⟨early,late⟩ := within
  have slashes := takeWhile_append_dropWhile (p:=(· == slash)) (l:=slash :: more)
  obtain ⟨run,runs⟩ : ∃ run, (slash :: more).takeWhile (· == slash) = run ++ [slash] := by
    have all : ∀ c ∈ (slash :: more).takeWhile (· == slash), c = slash := fun c member => by
      simpa using mem_takeWhile_imp member
    rcases eq_nil_or_concat' ((slash :: more).takeWhile (· == slash)) with nothing | ⟨run,last,shape'⟩
    · simp at nothing
    · refine ⟨run,?_⟩
      rw [shape',all last (by rw [shape']; simp)]
  have whole : path = ((slash :: more).dropWhile (· == slash)).reverse ++ slash :: (run.reverse ++ early.reverse) := by
    rw [←reverse_inj,←late]
    conv_lhs => rw [←slashes,runs]
    simp
  refine ⟨run.reverse ++ early.reverse,rest,whole,?_⟩
  have dropped : path.drop ((slash :: more).dropWhile (· == slash)).reverse.length = slash :: (run.reverse ++ early.reverse) := by
    conv_lhs => rw [whole]
    exact drop_left' rfl
  rw [dropped,←getNextName_dropWhile] at found
  rw [←found,←getNextName_dropWhile]
  simp

theorem getParentPath_components (split : getParentPath path = some (parentPath,name)) :
    ∃ rest, components path = components parentPath ++ name :: rest := by
  obtain ⟨tail,rest,rfl,next⟩ := getParentPath_shape split
  exact ⟨components rest,by rw [components_append_slash,components_some next]⟩

structure Path where
  chars : CString
  absolute : chars.head? = some slash
  fits : chars.length < maxPath
  short : ∀ name ∈ components chars, name.length < dirsiz
deriving DecidableEq

def Path.names (path : Path) : List CString := components path.chars

def Splits (path : CString) : Prop :=
  ∃ pair, getParentPath path = some pair ∧ components path = components pair.1 ++ [pair.2]

theorem dropWhile_all {p : UInt8 → Bool} {front back : CString} (all : ∀ c ∈ front, p c = true) :
    (front ++ back).dropWhile p = back.dropWhile p := by
  rw [dropWhile_append,dropWhile_eq_nil_iff.mpr all]
  rfl

theorem dropWhile_head {p : UInt8 → Bool} {front back : CString} (some : front ≠ []) (stops : ∀ c ∈ front, p c = false) :
    (front ++ back).dropWhile p = front ++ back := by
  cases front with
  | nil => exact absurd rfl some
  | cons c more => rw [cons_append,dropWhile_cons,stops c mem_cons_self,if_neg (by simp)]

theorem getNextName_last (named : name ≠ []) (noSlash : ∀ c ∈ name, c ≠ slash) (before behind : Nat) :
    getNextName (List.replicate before slash ++ name ++ List.replicate behind slash) = some (name.take dirsiz,[]) := by
  have run : ∀ n, ∀ c ∈ List.replicate n slash, (c == slash) = true := fun n c member => by
    rw [eq_of_mem_replicate member]
    rfl
  have plain : ∀ c ∈ name, (c != slash) = true := fun c member => by simpa using noSlash c member
  unfold getNextName
  dsimp only
  rw [append_assoc,dropWhile_all (run before),dropWhile_head named fun c member => by simpa using noSlash c member,
    if_neg (by simp [named]),dropWhile_all plain]
  have taken : (name ++ List.replicate behind slash).takeWhile (· != slash) = name := by
    rw [takeWhile_append_of_pos plain]
    cases behind <;> simp [replicate_succ]
  have ended : ((List.replicate behind slash).dropWhile (· != slash)).dropWhile (· == slash) = [] := by
    cases behind with
    | zero => rfl
    | succ n =>
      rw [replicate_succ,dropWhile_cons,if_neg (by simp),←replicate_succ]
      exact dropWhile_eq_nil_iff.mpr (run (n + 1))
  rw [taken,ended]

theorem strip_slashes (ends : parentPath.getLast? ≠ some slash) (n : Nat) :
    (List.replicate n slash ++ parentPath.reverse).dropWhile (· == slash) = parentPath.reverse := by
  rw [dropWhile_all fun c member => by rw [eq_of_mem_replicate member]; rfl]
  cases shape : parentPath.reverse with
  | nil => rfl
  | cons c more =>
    have last : c ≠ slash := by
      rintro rfl
      apply ends
      rw [←head?_reverse,shape]
      rfl
    rw [dropWhile_cons,if_neg (by simpa using last)]

theorem splits_of_parts (named : name ≠ []) (noSlash : ∀ c ∈ name, c ≠ slash)
    (ends : parentPath.getLast? ≠ some slash) (before behind : Nat)
    (notZeros : behind = 0 → ∃ c ∈ name, c ≠ digitZero) :
    Splits (parentPath ++ slash :: (List.replicate before slash ++ name ++ List.replicate behind slash)) := by
  have run : ∀ n, ∀ c ∈ List.replicate n slash, c = slash := fun n c member => eq_of_mem_replicate member
  have reversed : (parentPath ++ slash :: (List.replicate before slash ++ name ++ List.replicate behind slash)).reverse =
      List.replicate behind slash ++ (name.reverse ++ (List.replicate (before + 1) slash ++ parentPath.reverse)) := by
    simp [replicate_succ']
  -- What the first two loops leave of the name still has no slash.
  obtain ⟨left,leftPlain,stripped⟩ : ∃ left : CString, (∀ c ∈ left, (c != slash) = true) ∧
      ((List.replicate behind slash ++ (name.reverse ++ (List.replicate (before + 1) slash ++ parentPath.reverse))).dropWhile
        (· == digitZero)).dropWhile (· == slash) = left ++ (List.replicate (before + 1) slash ++ parentPath.reverse) := by
    cases behind with
    | zero =>
      obtain ⟨c,member,nonzero⟩ := notZeros rfl
      have some : name.reverse.dropWhile (· == digitZero) ≠ [] := by
        intro nothing
        have all := dropWhile_eq_nil_iff.mp nothing c (mem_reverse.mpr member)
        exact nonzero (by simpa using all)
      have plain : ∀ c ∈ name.reverse.dropWhile (· == digitZero), c ≠ slash := fun c member =>
        noSlash c (mem_reverse.mp ((dropWhile_sublist _).subset member))
      refine ⟨name.reverse.dropWhile (· == digitZero),fun c member => by simpa using plain c member,?_⟩
      rw [List.replicate_zero,nil_append,List.dropWhile_append,if_neg (by simpa [List.isEmpty_iff] using some)]
      exact dropWhile_head some fun c member => by simpa using plain c member
    | succ n =>
      refine ⟨name.reverse,fun c member => by simpa using noSlash c (mem_reverse.mp member),?_⟩
      rw [dropWhile_head (by simp) fun c member => by rw [run _ c member]; rfl,
        dropWhile_all fun c member => by rw [run _ c member]; rfl]
      exact dropWhile_head (by simpa using named) fun c member => by simpa using noSlash c (mem_reverse.mp member)
  refine ⟨(parentPath,name.take dirsiz),?_,?_⟩
  · unfold getParentPath
    dsimp only
    rw [reversed,stripped,dropWhile_all leftPlain,
      dropWhile_head (by simp) fun c member => by rw [run _ c member]; rfl,if_neg (by simp),strip_slashes ends,reverse_reverse,
      drop_left' rfl,←cons_append,←cons_append,←replicate_succ,getNextName_last named noSlash]
    rfl
  · rw [components_append_slash,components_some (getNextName_last named noSlash before behind)]
    rfl

theorem slashes_then (l : CString) : ∃ n rest, l = List.replicate n slash ++ rest ∧ rest.head? ≠ some slash := by
  refine ⟨(l.takeWhile (· == slash)).length,l.dropWhile (· == slash),?_,fun first => ?_⟩
  · have all := eq_replicate_of_mem fun c (member : c ∈ l.takeWhile (· == slash)) => by simpa using mem_takeWhile_imp member
    rw [← all]
    exact takeWhile_append_dropWhile.symm
  · have head := head?_dropWhile_not (· == slash) l
    rw [first] at head
    simp at head

theorem last_name (absolute : path.head? = some slash) (ends : path.getLast? ≠ some slash) :
    ∃ parentPath before name, path = parentPath ++ slash :: (List.replicate before slash ++ name) ∧ name ≠ [] ∧
      (∀ c ∈ name, c ≠ slash) ∧ parentPath.getLast? ≠ some slash := by
  have cut : path.reverse = path.reverse.takeWhile (· != slash) ++ path.reverse.dropWhile (· != slash) :=
    takeWhile_append_dropWhile.symm
  have plain : ∀ c ∈ path.reverse.takeWhile (· != slash), c ≠ slash := fun c member => by simpa using mem_takeWhile_imp member
  have last : path.reverse.getLast? = some slash := by rw [getLast?_reverse,absolute]
  have stop := head?_dropWhile_not (· != slash) path.reverse
  generalize path.reverse.takeWhile (· != slash) = word at cut plain
  generalize path.reverse.dropWhile (· != slash) = more at cut stop
  obtain ⟨n,rest,rfl,first⟩ := slashes_then more
  cases n with
  | zero =>
    -- without a slash before it the name would be all of the path
    have none : rest = [] := by
      cases rest with
      | nil => rfl
      | cons c rest =>
        simp at stop first
        exact absurd stop first
    rw [none,replicate_zero,append_nil,append_nil] at cut
    rw [cut] at last
    exact absurd rfl (plain slash (mem_of_getLast? last))
  | succ before =>
    have whole : path = rest.reverse ++ slash :: (List.replicate before slash ++ word.reverse) := by
      rw [← reverse_inj,cut]
      simp [replicate_succ']
    refine ⟨rest.reverse,before,word.reverse,whole,?_,fun c member => plain c (mem_reverse.mp member),by rwa [getLast?_reverse]⟩
    intro none
    apply ends
    rw [← head?_reverse,cut,reverse_eq_nil_iff.mp none]
    rfl

theorem components_slashes (n : Nat) : components (List.replicate n slash) = [] := by
  refine components_none ?_
  have all : (List.replicate n slash).dropWhile (· == slash) = [] := dropWhile_eq_nil_iff.mpr fun c member => by
    simp [eq_of_mem_replicate member]
  simp [getNextName,all]

theorem path_parts (absolute : path.head? = some slash) (named : components path ≠ []) :
    ∃ parentPath before name behind, path = parentPath ++ slash :: (List.replicate before slash ++ name ++ List.replicate behind slash) ∧
      name ≠ [] ∧ (∀ c ∈ name, c ≠ slash) ∧ parentPath.getLast? ≠ some slash := by
  obtain ⟨behind,rest,cut,first⟩ := slashes_then path.reverse
  have whole : path = rest.reverse ++ List.replicate behind slash := by
    rw [← reverse_inj,cut]
    simp
  have front : rest.reverse.head? = some slash := by
    cases shape : rest.reverse with
    | nil =>
      rw [whole,shape] at named
      exact absurd (components_slashes behind) named
    | cons c more =>
      rw [whole,shape] at absolute
      exact absolute
  obtain ⟨parentPath,before,name,split,known⟩ := last_name front (by rwa [getLast?_reverse])
  refine ⟨parentPath,before,name,behind,?_,known⟩
  rw [whole,split]
  simp

theorem zeros_mislead {before : Nat} (absolute : path.head? = some slash)
    (shape : path = parentPath ++ slash :: (List.replicate before slash ++ name)) (named : name ≠ []) (noSlash : ∀ c ∈ name, c ≠ slash)
    (ends : parentPath.getLast? ≠ some slash) (zeros : ∀ c ∈ name, c = digitZero) : ¬Splits path := by
  rintro ⟨⟨parent,last⟩,found,exactly⟩
  have next := getNextName_last named noSlash before 0
  rw [replicate_zero,append_nil] at next
  rw [shape,components_append_slash,components_some next] at exactly
  have reversed : path.reverse = name.reverse ++ (List.replicate (before + 1) slash ++ parentPath.reverse) := by
    rw [shape]
    simp [replicate_succ']
  unfold getParentPath at found
  dsimp only at found
  rw [reversed,dropWhile_all fun c member => by simp [zeros c (mem_reverse.mp member)],
    dropWhile_head (by simp) fun c member => by rw [eq_of_mem_replicate member]; rfl,strip_slashes ends] at found
  obtain ⟨notNull,found⟩ := ite_none_left_eq_some.mp found
  obtain ⟨_,_,same⟩ := map_eq_some_iff.mp found
  cases parentPath with
  | nil => exact notNull rfl
  | cons c more =>
    have absolute : (c :: more).head? = some slash := by
      rw [shape] at absolute
      exact absolute
    obtain ⟨front,before',name',split,named',noSlash',ends'⟩ := last_name absolute ends
    have next' := getNextName_last named' noSlash' before' 0
    rw [replicate_zero,append_nil] at next'
    have reversed' : (c :: more).reverse = name'.reverse ++ (List.replicate (before' + 1) slash ++ front.reverse) := by
      rw [split]
      simp [replicate_succ']
    rw [reversed',dropWhile_all fun c member => by simpa using noSlash' c (mem_reverse.mp member),
      dropWhile_head (by simp) fun c member => by rw [eq_of_mem_replicate member]; rfl,strip_slashes ends',reverse_reverse] at same
    obtain rfl : front = parent := congrArg Prod.fst same
    rw [split,components_append_slash,components_some next'] at exactly
    have count := congrArg List.length exactly
    simp [components] at count

theorem splits_iff (absolute : path.head? = some slash) (named : components path ≠ [])
    (short : ∀ name ∈ components path, name.length < dirsiz) :
    Splits path ↔ path.getLast? = some slash ∨ ∃ c ∈ (components path).getLast named, c ≠ digitZero := by
  obtain ⟨parentPath,before,name,behind,shape,some,noSlash,ends⟩ := path_parts absolute named
  have whole : components path = components parentPath ++ [name.take dirsiz] := by
    rw [shape,components_append_slash,components_some (getNextName_last some noSlash before behind)]
    rfl
  have fits : name.take dirsiz = name := by
    have length := short (name.take dirsiz) (by rw [whole]; simp)
    rw [length_take] at length
    exact take_of_length_le (by omega)
  have last : (components path).getLast named = name := by
    rw [fits] at whole
    simp only [whole,getLast_append_of_ne_nil _ (cons_ne_nil _ _),getLast_singleton]
  rw [last]
  cases behind with
  | zero =>
    have apart : path.getLast? ≠ Option.some slash := by
      intro last
      rw [shape,replicate_zero,append_nil,getLast?_append_cons,← cons_append,getLast?_append_of_ne_nil _ some] at last
      exact noSlash slash (mem_of_getLast? last) rfl
    constructor
    · intro splits
      right
      by_contra zeros
      rw [replicate_zero,append_nil] at shape
      exact zeros_mislead absolute shape some noSlash ends (fun c member => by by_contra other; exact zeros ⟨c,member,other⟩) splits
    · intro known
      rw [shape]
      exact splits_of_parts some noSlash ends before 0 fun _ => known.resolve_left apart
  | succ n =>
    have slashed : path.getLast? = Option.some slash := by
      rw [shape,getLast?_append_cons,← cons_append,replicate_succ',← append_assoc,getLast?_concat]
    refine ⟨fun _ => .inl slashed,fun _ => ?_⟩
    rw [shape]
    exact splits_of_parts some noSlash ends before (n + 1) fun zero => by cases zero

instance (path : CString) : Decidable (Splits path) :=
  match h : getParentPath path with
  | none => .isFalse (by rintro ⟨pair,found,_⟩; rw [h] at found; cases found)
  | some pair => decidable_of_iff (components path = components pair.1 ++ [pair.2]) (by simp [Splits,h])

end Assise.Paths
