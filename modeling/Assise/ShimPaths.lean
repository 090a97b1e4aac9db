import Assise.Paths

-- The shim's test whether a call is for LibFS: pointers go over the path and over a buffer that is
-- to get the normal form of the path.
namespace Assise.ShimPaths
open Directory Paths List

-- What `collapse_name` leaves: the string it has terminated, or the bytes that stood in the zeroed
-- buffer when it returned -1. `overrun` is a read behind the terminator of the path.
inductive Outcome where
  | collapsed (out : CString)
  | failed (buffer : CString)
  | overrun
deriving DecidableEq

def skip (input : CString) : CString := input.dropWhile (· == slash)

def backUp (output : CString) : CString := output.dropLast.rdropWhile (· != slash)

-- `stale` has the bytes of the buffer behind `output`. The first byte of a component is copied
-- before it is looked at.
def collapseFrom : Nat → CString → CString → CString → Option Outcome
  | 0,_,_,_ => none
  | fuel + 1,input,output,stale =>
    if input.take 3 = dotDot ++ [slash] then
      if output = [] then some (.failed stale)
      else collapseFrom fuel (skip (input.drop 3)) (backUp output) (output.drop (backUp output).length ++ stale)
    else if input.take 2 = dot ++ [slash] then collapseFrom fuel (skip (input.drop 2)) output stale
    else
      match input with
      | [] => some .overrun
      | c :: rest =>
        let name := c :: rest.takeWhile (· != slash)
        match rest.dropWhile (· != slash) with
        | [] => some (.collapsed (output ++ name))
        | _ :: more => collapseFrom fuel (skip more) (output ++ name ++ [slash]) (stale.drop (name.length + 1))

def collapseName (path : CString) : Option Outcome := collapseFrom (path.length + 1) path [] []

def mlfsName : CString := [109,108,102,115]
def mlfsPrefix : CString := slash :: mlfsName

-- Whether `shim_do_open` hands the call to LibFS; it does not look at what `collapse_name` returns.
def shimDoOpen (path : CString) : Option Bool :=
  (collapseName path).bind fun
    | .collapsed out => some (strncmp out mlfsPrefix 5)
    | .failed buffer => some (strncmp buffer mlfsPrefix 5)
    | .overrun => none

-- The lexical normal form, from the fields between the slashes: the components, the last one first, and the number of
-- ".." met at the root.
def field (state : List CString × Nat) (f : CString) : List CString × Nat :=
  if f = [] ∨ f = dot then state
  else if f = dotDot then (state.1.tail,if state.1 = [] then state.2 + 1 else state.2)
  else (f :: state.1,state.2)

def walked (path : CString) : List CString × Nat := (path.splitOn slash).foldl field ([],0)

def form (comps : List CString) : CString := if comps = [] then [slash] else comps.flatMap (slash :: ·)

def CollapsesRight (path : CString) : Prop :=
  collapseName path = some (.collapsed (form (walked path).1.reverse)) ∧
    (shimDoOpen path = some true ↔ (walked path).1.getLast? = some mlfsName)

def Name (f : CString) : Prop := f ≠ [] ∧ f ≠ dot ∧ f ≠ dotDot

-- The first field is taken for a name whatever it is: as many ".." at the root make up for it.
def lost (first : CString) : Nat := if first = [] ∨ first = dot then 1 else if first = dotDot then 2 else 0

def Collapsible (rest : CString) : Prop :=
  rest = [] ∨ (∀ last ∈ (rest.splitOn slash).getLast?, Name last) ∧
    ∀ first ∈ (rest.splitOn slash).head?, (walked rest).2 = lost first

variable {f last stale : CString} {fs mid T B X Y : List CString}

def Plain (f : CString) : Prop := ∀ c ∈ f, (c != slash) = true

instance (f : CString) : Decidable (Plain f) := List.decidableBAll (fun c => (c != slash) = true) f

theorem takeWhile_plain (plain : Plain f) (rest : CString) :
    (f ++ slash :: rest).takeWhile (· != slash) = f ∧ (f ++ slash :: rest).dropWhile (· != slash) = slash :: rest := by
  rw [takeWhile_append_of_pos plain,dropWhile_append_of_pos plain]
  simp

theorem skip_plain (plain : Plain f) (some' : f ≠ []) (rest : CString) : skip (f ++ rest) = f ++ rest := by
  obtain ⟨c,more,rfl⟩ := exists_cons_of_ne_nil some'
  have other : ¬ c = slash := by simpa using plain c mem_cons_self
  simp [skip,other]

def joined (fs : List CString) : CString := [slash].intercalate fs

theorem joined_cons (some' : fs ≠ []) : joined (f :: fs) = f ++ slash :: joined fs := by
  obtain ⟨g,more,rfl⟩ := exists_cons_of_ne_nil some'
  simp [joined,intercalate_cons_cons]

def pre : List CString → CString
  | [] => []
  | f :: S => pre S ++ f ++ [slash]

theorem pre_ne (f : CString) (X : List CString) : pre (f :: X) ≠ [] := by simp [pre]

theorem backUp_pre (plain : Plain f) : backUp (pre (f :: X)) = pre X := by
  have all : ∀ c ∈ f.reverse, (c != slash) = true := fun c member => plain c (mem_reverse.mp member)
  rw [backUp,pre,dropLast_concat,List.rdropWhile,reverse_append,dropWhile_append_of_pos all]
  cases X <;> simp [pre]

theorem pre_injective (plain : ∀ f ∈ X, Plain f) (plain' : ∀ f ∈ Y, Plain f) (same : pre X = pre Y) : X = Y := by
  induction X generalizing Y with
  | nil =>
    cases Y with
    | nil => rfl
    | cons g Y => exact absurd same.symm (pre_ne g Y)
  | cons f X ih =>
    cases Y with
    | nil => exact absurd same (pre_ne f X)
    | cons g Y =>
      obtain ⟨here,plain⟩ := forall_mem_cons.mp plain
      obtain ⟨here',plain'⟩ := forall_mem_cons.mp plain'
      have below : pre X = pre Y := by rw [← backUp_pre here,same,backUp_pre here']
      rw [pre,pre,below] at same
      have top : f = g := by simpa using same
      rw [top,ih plain plain' below]

theorem take_field {link : CString} (n : Nat) (count : n = link.length + 1) (plain : Plain f) (linkPlain : Plain link)
    (rest : CString) : (f ++ slash :: rest).take n = link ++ [slash] ↔ f = link := by
  subst count
  constructor
  · intro same
    have whole : f ++ slash :: rest = link ++ slash :: (f ++ slash :: rest).drop (link.length + 1) := by
      conv => lhs; rw [← take_append_drop (link.length + 1) (f ++ slash :: rest),same]
      simp
    rw [← (takeWhile_plain plain rest).1,whole,(takeWhile_plain linkPlain _).1]
  · rintro rfl
    simp [take_append]

theorem take_last {link : CString} {n : Nat} (plain : Plain f) : f.take n ≠ link ++ [slash] := fun same => by
  have member : slash ∈ f := mem_of_mem_take (same ▸ mem_append_right _ mem_cons_self)
  simpa using plain slash member

theorem fields_count (state : List CString × Nat) (fs : List CString) : state.2 ≤ (fs.foldl field state).2 := by
  induction fs generalizing state with
  | nil => exact le_refl _
  | cons f fs ih =>
    refine le_trans ?_ (ih _)
    simp only [field]
    split_ifs <;> simp

theorem fields_mem (state : List CString × Nat) (fs : List CString) (member : f ∈ (fs.foldl field state).1) :
    f ∈ state.1 ∨ f ∈ fs ∧ Name f := by
  induction fs generalizing state with
  | nil => exact Or.inl member
  | cons g fs ih =>
    rcases ih _ member with old | ⟨new,name⟩
    · unfold field at old
      split at old
      · exact Or.inl old
      · rename_i kept
        split at old
        · exact Or.inl (mem_of_mem_tail old)
        · rename_i up
          rcases mem_cons.mp old with rfl | old
          · exact Or.inr ⟨mem_cons_self,fun none_ => kept (Or.inl none_),fun same => kept (Or.inr same),up⟩
          · exact Or.inl old
    · exact Or.inr ⟨mem_cons_of_mem _ new,name⟩

def Outcome.written : Outcome → Option CString
  | .collapsed out => some out
  | _ => none

-- The buffer holds the lexical components on top of what the ".." at the root have left of `B`.
theorem collapseFrom_fields {fuel k : Nat} (plain : ∀ g ∈ mid ++ [last], Plain g) (clear : ∀ g ∈ T ++ B, Plain g)
    (within : k ≤ B.length) (enough : (skip (joined (mid ++ [last]))).length < fuel) :
    (collapseFrom fuel (skip (joined (mid ++ [last]))) (pre (T ++ B.drop k)) stale).bind Outcome.written =
      if last = [] ∨ B.length < (mid.foldl field (T,k)).2 then none
      else some (pre ((mid.foldl field (T,k)).1 ++ B.drop (mid.foldl field (T,k)).2) ++ last) := by
  induction mid generalizing T k fuel stale with
  | nil =>
    obtain ⟨fuel,rfl⟩ : ∃ less, fuel = less + 1 := ⟨fuel - 1,by omega⟩
    have here : Plain last := plain last (by simp)
    have alone : skip (joined [last]) = last := by
      by_cases none_ : last = []
      · rw [none_]; rfl
      · simpa [joined] using skip_plain here none_ []
    rw [nil_append,alone]
    unfold collapseFrom
    rw [if_neg (take_last here),if_neg (take_last here)]
    cases last with
    | nil => rfl
    | cons c rest =>
      have all : ∀ x ∈ rest, (x != slash) = true := fun x member => here x (mem_cons_of_mem _ member)
      simp only [takeWhile_eq_self_iff.mpr all,dropWhile_eq_nil_iff.mpr all]
      simp [Outcome.written,not_lt.mpr within]
  | cons f mid ih =>
    obtain ⟨here,later⟩ := forall_mem_cons.mp plain
    have whole : joined (f :: mid ++ [last]) = f ++ slash :: joined (mid ++ [last]) := joined_cons (by simp)
    rw [foldl_cons]
    by_cases none_ : f = []
    · have skipped : skip (joined (f :: mid ++ [last])) = skip (joined (mid ++ [last])) := by
        rw [whole,none_]
        simp [skip]
      rw [skipped] at enough ⊢
      have same : field (T,k) f = (T,k) := if_pos (Or.inl none_)
      rw [same]
      exact ih later clear within enough
    obtain ⟨fuel,rfl⟩ : ∃ less, fuel = less + 1 := ⟨fuel - 1,by omega⟩
    rw [whole,skip_plain here none_] at enough ⊢
    have shorter : (skip (joined (mid ++ [last]))).length < fuel := by
      have less : (skip (joined (mid ++ [last]))).length ≤ (joined (mid ++ [last])).length := (dropWhile_sublist _).length_le
      rw [length_append,length_cons] at enough
      omega
    unfold collapseFrom field
    by_cases up : f = dotDot
    · have climbs : ¬(f = [] ∨ f = dot) := by rw [up]; decide
      have dropped : (f ++ slash :: joined (mid ++ [last])).drop 3 = joined (mid ++ [last]) := by rw [up]; rfl
      rw [if_pos ((take_field 3 rfl here (by decide) _).mpr up),if_neg climbs,if_pos up,dropped]
      cases T with
      | cons t T =>
        obtain ⟨first,clear⟩ := forall_mem_cons.mp clear
        rw [cons_append,if_neg (pre_ne _ _),backUp_pre first]
        exact ih later clear within shorter
      | nil =>
        cases left : B.drop k with
        | nil =>
          have ended := drop_eq_nil_iff.mp left
          have counted := fields_count ([],k + 1) mid
          rw [if_pos rfl]
          exact (if_pos (Or.inr (lt_of_lt_of_le (by omega) counted))).symm
        | cons b rest =>
          have inside : k + 1 ≤ B.length := by
            have long := congrArg List.length left
            rw [length_drop,length_cons] at long
            omega
          have next : rest = B.drop (k + 1) := by rw [← tail_drop,left]; rfl
          have first : Plain b := clear b (mem_of_mem_drop (left ▸ mem_cons_self))
          rw [nil_append,if_neg (pre_ne _ _),backUp_pre first,next]
          exact ih later clear inside shorter
    rw [if_neg (mt (take_field 3 rfl here (by decide) _).mp up)]
    by_cases same : f = dot
    · have dropped : (f ++ slash :: joined (mid ++ [last])).drop 2 = joined (mid ++ [last]) := by rw [same]; rfl
      rw [if_pos ((take_field 2 rfl here (by decide) _).mpr same),if_pos (Or.inr same),dropped]
      exact ih later clear within shorter
    rw [if_neg (mt (take_field 2 rfl here (by decide) _).mp same),if_neg (not_or.mpr ⟨none_,same⟩),if_neg up]
    cases f with
    | nil => exact absurd rfl none_
    | cons c rest =>
      obtain ⟨name,ends⟩ := takeWhile_plain (fun x member => here x (mem_cons_of_mem _ member) : Plain rest) (joined (mid ++ [last]))
      simp only [cons_append,name,ends]
      exact ih (T:=(c :: rest) :: T) later (forall_mem_cons.mpr ⟨here,clear⟩) within shorter

theorem fields_of (l : CString) : ∃ f fs, (∀ g ∈ f :: fs, Plain g) ∧ l = joined (f :: fs) := by
  induction l with
  | nil => exact ⟨[],[],by decide,rfl⟩
  | cons c l ih =>
    obtain ⟨f,fs,plain,rfl⟩ := ih
    by_cases same : c = slash
    · exact ⟨[],f :: fs,forall_mem_cons.mpr ⟨by decide,plain⟩,by rw [joined_cons (cons_ne_nil _ _),same]; rfl⟩
    · obtain ⟨first,later⟩ := forall_mem_cons.mp plain
      refine ⟨c :: f,fs,forall_mem_cons.mpr ⟨forall_mem_cons.mpr ⟨by simpa using same,first⟩,later⟩,?_⟩
      cases fs with
      | nil => rfl
      | cons g fs => rw [joined_cons (cons_ne_nil _ _),joined_cons (cons_ne_nil _ _)]; rfl

theorem splitOn_joined (plain : ∀ g ∈ f :: fs, Plain g) : (joined (f :: fs)).splitOn slash = f :: fs :=
  splitOn_intercalate slash (fun g member inside => by simpa using plain g member slash inside) (cons_ne_nil _ _)

theorem walked_joined (plain : ∀ g ∈ f :: fs, Plain g) : walked (slash :: joined (f :: fs)) = (f :: fs).foldl field ([],0) := by
  have whole : slash :: joined (f :: fs) = joined ([] :: f :: fs) := by
    rw [joined_cons (cons_ne_nil _ _),nil_append]
  rw [walked,whole,splitOn_joined (forall_mem_cons.mpr ⟨by decide,plain⟩)]
  rfl

theorem pre_form (T : List CString) : pre (T ++ [[]]) = T.reverse.flatMap (slash :: ·) ++ [slash] := by
  induction T with
  | nil => rfl
  | cons f T ih => simp [pre,ih]

theorem form_cons (f : CString) (T : List CString) : form (f :: T).reverse = pre (T ++ [[]]) ++ f := by
  rw [pre_form]
  simp [form]

-- The first field lies in the buffer as a name; unless it is one, it has to be climbed over again.
theorem field_first (f : CString) : ∃ T B c, field ([],0) f = (T,c) ∧ c ≤ B.length ∧ T ++ B.drop c = [f,[]] ∧
    (∀ g ∈ T ++ B, g = f ∨ g = []) ∧ ∀ k, B.drop k = [[]] ↔ k = lost f := by
  by_cases skipped : f = [] ∨ f = dot
  · refine ⟨[],[f,[]],0,if_pos skipped,by simp,rfl,by simp,fun k => ?_⟩
    rw [lost,if_pos skipped]
    rcases k with _ | _ | k <;> simp
  by_cases up : f = dotDot
  · refine ⟨[],[[],f,[]],1,by rw [up]; decide,by simp,rfl,by simp,fun k => ?_⟩
    rw [lost,if_neg skipped,if_pos up]
    rcases k with _ | _ | _ | k <;> simp
  · refine ⟨[f],[[]],0,by simp [field,skipped,up],by simp,rfl,by simp,fun k => ?_⟩
    rw [lost,if_neg skipped,if_neg up]
    rcases k with _ | k <;> simp

theorem collapsed_iff {path out : CString} :
    collapseName path = some (.collapsed out) ↔ (collapseName path).bind Outcome.written = some out := by
  cases collapseName path with
  | none => simp
  | some outcome => cases outcome <;> simp [Outcome.written]

theorem name_field (name : Name last) (state : List CString × Nat) : field state last = (last :: state.1,state.2) := by
  have kept : ¬(last = [] ∨ last = dot) := not_or.mpr ⟨name.1,name.2.1⟩
  rw [field,if_neg kept,if_neg name.2.2]

-- The last field is copied whatever it is.
theorem form_iff {k : Nat} (plain : ∀ g ∈ last :: (T ++ X), Plain g) (names : ∀ g ∈ T, Name g) (some' : last ≠ []) :
    pre (T ++ X) ++ last = form (field (T,k) last).1.reverse ↔ Name last ∧ X = [[]] := by
  obtain ⟨here,below⟩ := forall_mem_cons.mp plain
  have clear : ∀ g ∈ last :: T ++ [[]], Plain g := by
    refine forall_mem_cons.mpr ⟨here,forall_mem_append.mpr ⟨(forall_mem_append.mp below).1,by decide⟩⟩
  by_cases name : Name last
  · rw [name_field name,form_cons,and_iff_right name]
    refine ⟨fun same => ?_,fun same => by rw [same]⟩
    exact append_cancel_left (pre_injective below (forall_mem_cons.mp clear).2 (append_cancel_right same))
  · refine iff_of_false (fun same => ?_) fun both => name both.1
    cases left : (field (T,k) last).1 with
    | nil =>
      obtain ⟨c,more,rfl⟩ := exists_cons_of_ne_nil some'
      have other : ¬ c = slash := by simpa using here c mem_cons_self
      rw [left] at same
      cases shape : T ++ X with
      | nil => rw [shape] at same; exact other (List.cons.inj same).1
      | cons x more =>
        have long := congrArg List.length same
        simp [shape,pre,form] at long
        omega
    | cons t rest =>
      have kept : ∀ g ∈ t :: rest, g ∈ T ∨ g ∈ [last] ∧ Name g := fun g member =>
        fields_mem (T,k) [last] (left ▸ member)
      have equal : last :: (T ++ X) = t :: (rest ++ [[]]) := by
        refine pre_injective plain (fun g member => clear g ?_) (by rw [pre,same,left,form_cons,pre])
        rcases mem_append.mp (cons_append ▸ member : g ∈ (t :: rest) ++ [[]]) with old | new
        · exact (kept g old).elim (fun old => by simp [old]) fun new => by simp [mem_singleton.mp new.1]
        · exact mem_append_right _ new
      rw [← (List.cons.inj equal).1] at kept
      exact name ((kept last mem_cons_self).elim (names last) And.right)

theorem collapsible_joined (plain : ∀ g ∈ f :: fs, Plain g) (ends : (f :: fs).getLast? = some last) :
    Collapsible (joined (f :: fs)) ↔ joined (f :: fs) = [] ∨ Name last ∧ ((f :: fs).foldl field ([],0)).2 = lost f := by
  rw [Collapsible,walked,splitOn_joined plain,ends]
  simp

theorem collapse_single (plain : Plain f) :
    collapseName (slash :: joined [f]) = some (.collapsed (form (walked (slash :: joined [f])).1.reverse)) ↔
      Collapsible (joined [f]) := by
  have alone : ∀ g ∈ [f], Plain g := forall_mem_singleton.mpr plain
  have whole : joined [f] = f := by simp [joined]
  have written : (collapseName (slash :: f)).bind Outcome.written = some (pre ([] ++ [[]]) ++ f) := by
    unfold collapseName collapseFrom
    rw [if_neg (by simp [slash,dotDot]),if_neg (by simp [slash,dot])]
    simp only [takeWhile_eq_self_iff.mpr plain,dropWhile_eq_nil_iff.mpr plain]
    rfl
  rw [collapsed_iff,walked_joined alone,collapsible_joined alone rfl,whole,written,Option.some.injEq,foldl_cons,foldl_nil]
  by_cases none_ : f = []
  · simp [none_,field,form,pre]
  · rw [form_iff (forall_mem_cons.mpr ⟨plain,by decide⟩) (by simp) none_,or_iff_right none_]
    refine and_congr_right fun name => iff_of_true rfl ?_
    simp [name_field name,lost,name.1,name.2.1,name.2.2]

theorem collapse_fields (plain : ∀ g ∈ f :: (mid ++ [last]), Plain g) :
    collapseName (slash :: joined (f :: (mid ++ [last]))) =
        some (.collapsed (form (walked (slash :: joined (f :: (mid ++ [last])))).1.reverse)) ↔
      Collapsible (joined (f :: (mid ++ [last]))) := by
  obtain ⟨here,later⟩ := forall_mem_cons.mp plain
  obtain ⟨T,B,c,first,within,stack,bottom,climbed⟩ := field_first f
  have whole : joined (f :: (mid ++ [last])) = f ++ slash :: joined (mid ++ [last]) := joined_cons (by simp)
  have long : joined (f :: (mid ++ [last])) ≠ [] := by rw [whole]; simp
  have below : ∀ g ∈ T ++ B, Plain g := fun g member => by
    rcases bottom g member with rfl | rfl
    · exact here
    · decide
  have written : (collapseName (slash :: joined (f :: (mid ++ [last])))).bind Outcome.written =
      if last = [] ∨ B.length < (mid.foldl field (T,c)).2 then none
      else some (pre ((mid.foldl field (T,c)).1 ++ B.drop (mid.foldl field (T,c)).2) ++ last) := by
    obtain ⟨name,ends⟩ := takeWhile_plain here (joined (mid ++ [last]))
    have short : (skip (joined (mid ++ [last]))).length < (slash :: joined (f :: (mid ++ [last]))).length := by
      have less : (skip (joined (mid ++ [last]))).length ≤ (joined (mid ++ [last])).length := (dropWhile_sublist _).length_le
      rw [whole,length_cons,length_append,length_cons]
      omega
    unfold collapseName collapseFrom
    rw [if_neg (by simp [slash,dotDot]),if_neg (by simp [slash,dot])]
    rw [whole] at short ⊢
    simp only [name,ends]
    have ran := @collapseFrom_fields last [] mid T B _ c later below within short
    rwa [stack] at ran
  have total : (f :: (mid ++ [last])).foldl field ([],0) = field (mid.foldl field (T,c)) last := by
    rw [foldl_cons,first,foldl_append]
    rfl
  have names : ∀ g ∈ (mid.foldl field (T,c)).1, g ∈ f :: mid ∧ Name g := fun g member =>
    (fields_mem ([],0) (f :: mid) (by rw [foldl_cons,first]; exact member)).resolve_left not_mem_nil
  have ends : (f :: (mid ++ [last])).getLast? = some last := by rw [← cons_append,getLast?_concat]
  rw [collapsed_iff,written,walked_joined plain,collapsible_joined plain ends,or_iff_right long,total]
  generalize mid.foldl field (T,c) = reached at names
  obtain ⟨T',k⟩ := reached
  split
  · rename_i stops
    refine iff_of_false nofun fun ⟨name,up⟩ => ?_
    rw [name_field name,← climbed,drop_eq_nil_of_le (stops.resolve_left name.1).le] at up
    cases up
  · rename_i goes
    have above : ∀ g ∈ last :: (T' ++ B.drop k), Plain g := by
      refine forall_mem_cons.mpr ⟨plain last (by simp),forall_mem_append.mpr ⟨fun g member => ?_,fun g member => ?_⟩⟩
      · exact plain g (mem_append_left _ (names g member).1)
      · exact below g (mem_append_right _ (mem_of_mem_drop member))
    rw [Option.some.injEq,form_iff above (fun g member => (names g member).2) fun none_ => goes (Or.inl none_),climbed]
    exact and_congr_right fun name => by rw [name_field name]

theorem collapse_iff (rest : CString) :
    collapseName (slash :: rest) = some (.collapsed (form (walked (slash :: rest)).1.reverse)) ↔ Collapsible rest := by
  obtain ⟨f,fs,plain,rfl⟩ := fields_of rest
  rcases eq_nil_or_concat fs with rfl | ⟨mid,last,rfl⟩
  · exact collapse_single (plain f mem_cons_self)
  · rw [concat_eq_append] at plain ⊢
    exact collapse_fields plain

-- The shim's test reads five bytes of the normal form; a slash behind a shorter component is none of them.
theorem taken_iff {comps : List CString} (plain : ∀ c ∈ comps, Plain c) :
    strncmp (form comps) mlfsPrefix 5 = true ↔ ∃ c ∈ comps.head?, mlfsName <+: c := by
  cases comps with
  | nil => decide
  | cons c cs =>
    have five : strncmp (form (c :: cs)) mlfsPrefix 5 = true ↔ mlfsName <+: c ++ cs.flatMap (slash :: ·) := by
      have whole : form (c :: cs) = slash :: (c ++ cs.flatMap (slash :: ·)) := by simp [form]
      rw [whole,prefix_iff_eq_take,strncmp,beq_iff_eq,take_succ_cons]
      exact ⟨fun same => (List.cons.inj same).2.symm,fun same => congrArg (slash :: ·) same.symm⟩
    rw [five]
    simp only [head?_cons,Option.mem_def,Option.some.injEq,exists_eq_left']
    refine ⟨fun starts => ?_,fun starts => starts.trans (prefix_append ..)⟩
    rcases prefix_or_prefix_of_prefix starts (prefix_append ..) with inside | ⟨more,short⟩
    · exact inside
    · rw [← short,prefix_append_right_inj] at starts
      cases more with
      | nil => rw [← short,append_nil]
      | cons x more =>
        cases cs with
        | nil => simp at starts
        | cons d cs =>
          have first : x = slash := (cons_prefix_cons.mp starts).1
          have absent : slash ∉ mlfsName := by decide
          rw [← short,first] at absent
          simp at absent

theorem collapse_right_iff (rest : CString) : CollapsesRight (slash :: rest) ↔
    Collapsible rest ∧ ∀ c ∈ (walked (slash :: rest)).1.getLast?, mlfsName <+: c → c = mlfsName := by
  unfold CollapsesRight
  rw [collapse_iff]
  refine and_congr_right fun right => ?_
  have plain : ∀ c ∈ (walked (slash :: rest)).1.reverse, Plain c := by
    obtain ⟨f,fs,plain,rfl⟩ := fields_of rest
    rw [walked_joined plain]
    exact fun c member =>
      plain c ((fields_mem ([],0) _ (mem_reverse.mp member)).resolve_left not_mem_nil).1
  rw [shimDoOpen,(collapse_iff rest).mpr right,Option.bind_some,Option.some.injEq,taken_iff plain,head?_reverse]
  cases (walked (slash :: rest)).1.getLast? with
  | none => simp
  | some c =>
    simp only [Option.mem_def,Option.some.injEq,exists_eq_left',forall_eq']
    exact ⟨fun same => same.mp,fun only => ⟨only,fun same => same ▸ prefix_rfl⟩⟩

-- "/mlfs/a/", "/./mlfs" and "/mlfsx".
theorem collapse_wrong :
    collapseName [47,109,108,102,115,47,97,47] = some .overrun ∧
    collapseName [47,46,47,109,108,102,115] = some (.collapsed [47,46,47,109,108,102,115]) ∧
    shimDoOpen [47,46,47,109,108,102,115] = some false ∧ (walked [47,46,47,109,108,102,115]).1 = [mlfsName] ∧
    shimDoOpen [47,109,108,102,115,120] = some true ∧ (walked [47,109,108,102,115,120]).1 = [[109,108,102,115,120]] := by
  decide

end Assise.ShimPaths
