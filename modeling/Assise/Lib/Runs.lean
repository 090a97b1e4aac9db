import Mathlib.Logic.Basic

-- Runs of a partial step function. `Guarded` says that every step taken met a condition on the state it was taken from.
namespace Lib.Runs

variable {State Action : Type}

def run (step : State → Action → Option State) : State → List Action → Option State
  | s,[] => some s
  | s,action :: rest => (step s action).bind (run step · rest)

def Guarded (step : State → Action → Option State) (ok : State → Action → Prop) : State → List Action → Prop
  | _,[] => True
  | s,action :: rest => ok s action ∧
    match step s action with
    | none => True
    | some next => Guarded step ok next rest

instance decidableGuarded (step : State → Action → Option State) (ok : State → Action → Prop)
    [∀ s action, Decidable (ok s action)] : ∀ s actions, Decidable (Guarded step ok s actions)
  | _,[] => .isTrue trivial
  | s,action :: rest =>
    match h : step s action with
    | none => decidable_of_iff (ok s action) (by simp [Guarded,h])
    | some next =>
      have := decidableGuarded step ok next rest
      decidable_of_iff (ok s action ∧ Guarded step ok next rest) (by simp [Guarded,h])

-- What a computation returns can be tested, so that the outcome of a run on given inputs is evaluated.
section Outcomes
variable {α β : Type*}

instance decidableReturns {P : α → Prop} [DecidablePred P] (o : Option α) : Decidable (∃ s, o = some s ∧ P s) :=
  decidable_of_iff (∃ s ∈ o, P s) Iff.rfl

instance decidableReturnsSome (o : Option α) : Decidable (∃ s, o = some s) :=
  decidable_of_iff _ Option.isSome_iff_exists

instance decidableExistsAnd {a : Prop} {P : α → Prop} [Decidable a] [Decidable (∃ s, P s)] : Decidable (∃ s, a ∧ P s) :=
  decidable_of_iff _ exists_and_left.symm

instance decidableReturnsThen {P : α → β → Prop} [∀ s, Decidable (∃ x, P s x)] (o : Option α) :
    Decidable (∃ s x, o = some s ∧ P s x) :=
  decidable_of_iff (∃ s, o = some s ∧ ∃ x, P s x) (exists_congr fun _ => exists_and_left.symm)

instance decidableReturnsWith {P : α → Prop} [DecidablePred P] [DecidableEq β] (o : Option (α × β)) (b : β) :
    Decidable (∃ s, o = some (s,b) ∧ P s) :=
  decidable_of_iff (∃ r, o = some r ∧ r.2 = b ∧ P r.1)
    ⟨fun ⟨⟨s,_⟩,done,rfl,met⟩ => ⟨s,done,met⟩,fun ⟨s,done,met⟩ => ⟨(s,b),done,rfl,met⟩⟩

instance decidableReturnsSomeWith [DecidableEq β] (o : Option (α × β)) (b : β) : Decidable (∃ s, o = some (s,b)) :=
  decidable_of_iff (∃ s, o = some (s,b) ∧ True) (by simp)

instance decidableReturnsPair {P : α → β → Prop} [∀ a b, Decidable (P a b)] (o : Option (α × β)) :
    Decidable (∃ a b, o = some (a,b) ∧ P a b) :=
  decidable_of_iff (∃ r, o = some r ∧ P r.1 r.2) ⟨fun ⟨⟨a,b⟩,both⟩ => ⟨a,b,both⟩,fun ⟨a,b,both⟩ => ⟨(a,b),both⟩⟩

end Outcomes

variable {ok : State → Action → Prop} {s : State} {finished : State → Bool} {body : State → Option State} {fuel : Nat}

theorem Guarded.tail {step : State → Action → Option State} {next : State}
    {action : Action} {rest : List Action} (guarded : Guarded step ok s (action :: rest))
    (stepped : step s action = some next) : Guarded step ok next rest := by
  have later := guarded.2
  rw [stepped] at later
  exact later

section
variable (step : State → Action → Option State)
include step

theorem run_cons (s final : State) (action : Action) (rest : List Action) :
    run step s (action :: rest) = some final ↔ ∃ next, step s action = some next ∧ run step next rest = some final := by
  simp [run,Option.bind_eq_some_iff]

theorem invariant_run (ok : State → Action → Prop) (Inv : State → Prop)
    (preserved : ∀ s action next, Inv s → ok s action → step s action = some next → Inv next)
    (s final : State) (actions : List Action) (start : Inv s) (guarded : Guarded step ok s actions)
    (ran : run step s actions = some final) : Inv final := by
  induction actions generalizing s with
  | nil => cases ran; exact start
  | cons action rest ih =>
    obtain ⟨next,stepped,later⟩ := (run_cons step s final action rest).mp ran
    exact ih next (preserved s action next start guarded.1 stepped) (guarded.tail stepped) later

theorem total_run (ok : State → Action → Prop) (Inv : State → Prop)
    (advances : ∀ s action, Inv s → ok s action → ∃ next, step s action = some next ∧ Inv next)
    (s : State) (actions : List Action) (start : Inv s) (guarded : Guarded step ok s actions) :
    ∃ final, run step s actions = some final ∧ Inv final := by
  induction actions generalizing s with
  | nil => exact ⟨s,rfl,start⟩
  | cons action rest ih =>
    obtain ⟨next,stepped,kept⟩ := advances s action start guarded.1
    obtain ⟨final,ran,last⟩ := ih next kept (guarded.tail stepped)
    exact ⟨final,(run_cons step s final action rest).mpr ⟨next,stepped,ran⟩,last⟩

theorem guarded_append (ok : State → Action → Prop) (s middle : State)
    (first second : List Action) (guarded : Guarded step ok s (first ++ second)) (ran : run step s first = some middle) :
    Guarded step ok s first ∧ Guarded step ok middle second := by
  induction first generalizing s with
  | nil => cases ran; exact ⟨trivial,guarded⟩
  | cons action rest ih =>
    obtain ⟨next,stepped,later⟩ := (run_cons step s middle action rest).mp ran
    obtain ⟨early,late⟩ := ih next (guarded.tail stepped) later
    refine ⟨⟨guarded.1,?_⟩,late⟩
    rw [stepped]
    exact early

theorem guarded_true (s : State) (actions : List Action) :
    Guarded step (fun _ _ => True) s actions := by
  induction actions generalizing s with
  | nil => trivial
  | cons action rest ih =>
    refine ⟨trivial,?_⟩
    cases step s action with
    | none => trivial
    | some next => exact ih next

end

theorem guarded_iff {step : State → Action → Option State} {ok' : State → Action → Prop}
    (same : ∀ s action next, step s action = some next → (ok s action ↔ ok' s action)) {final : State}
    {actions : List Action} (ran : run step s actions = some final) :
    Guarded step ok s actions ↔ Guarded step ok' s actions := by
  induction actions generalizing s with
  | nil => exact Iff.rfl
  | cons action rest ih =>
    obtain ⟨next,stepped,later⟩ := (run_cons step s final action rest).mp ran
    simp only [Guarded,stepped]
    exact and_congr (same s action next stepped) (ih later)

-- Two runs side by side, each pair of steps related to the states before it.
def GuardedPair (step : State → Action → Option State) (ok : State → State → Action → Action → Prop) :
    State → State → List Action → List Action → Prop
  | _,_,[],[] => True
  | s,t,a :: as,b :: bs => ok s t a b ∧
      match step s a,step t b with
      | some s',some t' => GuardedPair step ok s' t' as bs
      | _,_ => True
  | _,_,_,_ => False

theorem GuardedPair.mono {step : State → Action → Option State} {ok ok' : State → State → Action → Action → Prop}
    (weaker : ∀ s t a b, ok s t a b → ok' s t a b) {t : State} {as bs : List Action}
    (guarded : GuardedPair step ok s t as bs) : GuardedPair step ok' s t as bs := by
  induction as generalizing s t bs with
  | nil =>
    cases bs with
    | nil => trivial
    | cons b bs => exact guarded.elim
  | cons a as ih =>
    cases bs with
    | nil => exact guarded.elim
    | cons b bs =>
      obtain ⟨met,rest⟩ := guarded
      refine ⟨weaker s t a b met,?_⟩
      revert rest
      cases step s a with
      | none => exact fun _ => trivial
      | some s' =>
        cases step t b with
        | none => exact fun _ => trivial
        | some t' => exact ih

instance decidableGuardedPair (step : State → Action → Option State) (ok : State → State → Action → Action → Prop)
    [∀ s t a b, Decidable (ok s t a b)] :
    (s t : State) → (as bs : List Action) → Decidable (GuardedPair step ok s t as bs)
  | _,_,[],[] => isTrue trivial
  | _,_,[],_ :: _ => isFalse id
  | _,_,_ :: _,[] => isFalse id
  | s,t,a :: as,b :: bs => by
    unfold GuardedPair
    cases step s a with
    | none => infer_instance
    | some s' =>
      cases step t b with
      | none => infer_instance
      | some t' =>
        have := decidableGuardedPair step ok s' t' as bs
        infer_instance

theorem pair_run (step : State → Action → Option State) (ok : State → State → Action → Action → Prop)
    (R : State → State → Prop)
    (follows : ∀ s t a b s', R s t → ok s t a b → step s a = some s' → ∃ t', step t b = some t' ∧ R s' t')
    (s t s' : State) (as bs : List Action) (related : R s t) (guarded : GuardedPair step ok s t as bs)
    (ran : run step s as = some s') : ∃ t', run step t bs = some t' ∧ R s' t' := by
  induction as generalizing s t bs with
  | nil =>
    cases bs with
    | nil =>
      cases ran
      exact ⟨t,rfl,related⟩
    | cons b bs => exact guarded.elim
  | cons a as ih =>
    cases bs with
    | nil => exact guarded.elim
    | cons b bs =>
      obtain ⟨next,stepped,later⟩ := (run_cons step s s' a as).mp ran
      obtain ⟨met,rest⟩ := guarded
      obtain ⟨next',stepped',related'⟩ := follows s t a b next related met stepped
      rw [stepped,stepped'] at rest
      obtain ⟨t',ran',final⟩ := ih next next' bs related' rest later
      exact ⟨t',(run_cons step t t' b bs).mpr ⟨next',stepped',ran'⟩,final⟩

-- A loop repeats `body` until the state is `finished`; the fuel bounds the number of passes.
def loop (finished : State → Bool) (body : State → Option State) : Nat → State → Option State
  | 0,s => if finished s then some s else none
  | fuel + 1,s => if finished s then some s else (body s).bind (loop finished body fuel)

def Throughout (finished : State → Bool) (body : State → Option State) (ok : State → Prop) : Nat → State → Prop
  | 0,_ => True
  | fuel + 1,s => finished s = true ∨ ok s ∧
    match body s with
    | none => True
    | some next => Throughout finished body ok fuel next

instance decidableThroughout (finished : State → Bool) (body : State → Option State) (ok : State → Prop)
    [DecidablePred ok] : (fuel : Nat) → (s : State) → Decidable (Throughout finished body ok fuel s)
  | 0,_ => isTrue trivial
  | fuel + 1,s => by
    unfold Throughout
    cases body s with
    | none => infer_instance
    | some next =>
      have := decidableThroughout finished body ok fuel next
      infer_instance

theorem throughout_true (finished : State → Bool) (body : State → Option State) (fuel : Nat) (s : State) :
    Throughout finished body (fun _ => True) fuel s := by
  induction fuel generalizing s with
  | zero => trivial
  | succ fuel ih =>
    refine Or.inr ⟨trivial,?_⟩
    cases body s with
    | none => trivial
    | some next => exact ih next

theorem loop_invariant {ok : State → Prop} (Inv : State → Prop)
    (preserved : ∀ s next, Inv s → finished s = false → ok s → body s = some next → Inv next)
    {final : State} (start : Inv s) (guarded : Throughout finished body ok fuel s)
    (done : loop finished body fuel s = some final) : Inv final ∧ finished final = true := by
  induction fuel generalizing s with
  | zero =>
    unfold loop at done
    split at done
    · cases done
      exact ⟨start,by assumption⟩
    · cases done
  | succ fuel ih =>
    unfold loop at done
    split at done
    · cases done
      exact ⟨start,by assumption⟩
    · rename_i more
      obtain ⟨next,stepped,later⟩ := Option.bind_eq_some_iff.mp done
      obtain ⟨met,rest⟩ := guarded.resolve_left more
      rw [stepped] at rest
      exact ih (preserved s next start (by simpa using more) met stepped) rest later

theorem loop_total {ok : State → Prop} (Inv : State → Prop)
    (left : State → Nat) (ends : ∀ s, Inv s → left s = 0 → finished s = true)
    (advances : ∀ s, Inv s → finished s = false → ok s → ∃ next, body s = some next ∧ Inv next ∧ left next < left s) (start : Inv s) (enough : left s ≤ fuel) (guarded : Throughout finished body ok fuel s) :
    ∃ final, loop finished body fuel s = some final ∧ Inv final ∧ finished final = true := by
  induction fuel generalizing s with
  | zero =>
    have stop := ends s start (Nat.le_zero.mp enough)
    exact ⟨s,if_pos stop,start,stop⟩
  | succ fuel ih =>
    unfold loop
    cases now : finished s with
    | true => exact ⟨s,rfl,start,now⟩
    | false =>
      obtain ⟨met,rest⟩ := guarded.resolve_left (by simp [now])
      obtain ⟨next,stepped,kept,fewer⟩ := advances s start now met
      rw [stepped] at rest
      obtain ⟨final,done,last⟩ := ih kept (by omega) rest
      exact ⟨final,by simp [stepped,done],last⟩

theorem loop_never (Inv : State → Prop)
    (more : ∀ s, Inv s → finished s = false) (goes : ∀ s next, Inv s → body s = some next → Inv next) (start : Inv s)
    (fuel : Nat) : loop finished body fuel s = none := by
  induction fuel generalizing s with
  | zero => simp [loop,more s start]
  | succ fuel ih =>
    unfold loop
    rw [more s start]
    cases stepped : body s with
    | none => rfl
    | some next => exact ih (goes s next start stepped)

theorem loop_related (R : State → State → Prop)
    (same : ∀ s t, R s t → finished t = finished s)
    (follows : ∀ s t s', R s t → finished s = false → body s = some s' → ∃ t', body t = some t' ∧ R s' t') {t s' : State} (related : R s t) (done : loop finished body fuel s = some s') :
    ∃ t', loop finished body fuel t = some t' ∧ R s' t' := by
  induction fuel generalizing s t with
  | zero =>
    unfold loop at done ⊢
    rw [same s t related]
    split at done
    · rename_i ends
      cases done
      exact ⟨t,if_pos ends,related⟩
    · cases done
  | succ fuel ih =>
    unfold loop at done ⊢
    rw [same s t related]
    split at done
    · rename_i ends
      cases done
      exact ⟨t,if_pos ends,related⟩
    · rename_i more
      obtain ⟨next,stepped,later⟩ := Option.bind_eq_some_iff.mp done
      obtain ⟨next',stepped',related'⟩ := follows s t next related (by simpa using more) stepped
      obtain ⟨t',later',final⟩ := ih related' later
      refine ⟨t',?_,final⟩
      rw [if_neg more,stepped',Option.bind_some]
      exact later'

end Lib.Runs
