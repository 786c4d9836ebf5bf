import Mathlib

/-!
# Stateful code that can fail, with a trace of what it did

`Eff σ ε ω α` is code over a state `σ` that returns an `α` or stops with an error
of type `ε`, and leaves a trace of observations `ω` in either case. `wp` is its
weakest precondition, for partial correctness and in rely-guarantee form: if every
observation of the execution satisfies `rely` then every one satisfies `guar`, also
when the code stops with an error, and when it returns the postcondition holds.
-/

namespace Xv6.Lib

/-- Code over the state `σ` with errors `ε` and observations `ω`. -/
def Eff (σ ε ω α : Type) : Type := σ → Except ε α × σ × List ω

namespace Eff
variable {σ ε ω α β ι : Type}

instance : Monad (Eff σ ε ω) where
  pure a := fun s => (.ok a, s, [])
  bind m f := fun s =>
    match m s with
    | (.error e, s', t) => (.error e, s', t)
    | (.ok a, s', t) => ((f a s').1, (f a s').2.1, t ++ (f a s').2.2)

/-- The current state. -/
def state : Eff σ ε ω σ := fun s => (.ok s, s, [])

/-- Replace the state `s` by `f s`. -/
def update (f : σ → σ) : Eff σ ε ω Unit := fun s => (.ok (), f s, [])

/-- Stop. -/
def fail (e : ε) : Eff σ ε ω α := fun s => (.error e, s, [])

/-- Leave an observation. -/
def emit (w : ω) : Eff σ ε ω Unit := fun s => (.ok (), s, [w])

/-- Run `body` on the elements of a list, in order. -/
def forEach (body : ι → Eff σ ε ω Unit) : List ι → Eff σ ε ω Unit
  | [] => pure ()
  | x :: xs => do body x; forEach body xs

/-- Sequencing after a first part that returned. -/
theorem bind_ok {m : Eff σ ε ω α} {f : α → Eff σ ε ω β} {s s' : σ} {a : α} {t : List ω} (first : m s = (.ok a, s', t)) :
    (m >>= f) s = ((f a s').1, (f a s').2.1, t ++ (f a s').2.2) := by
  have unfolded : (m >>= f) s = match m s with
      | (.error e, s', t) => (.error e, s', t)
      | (.ok a, s', t) => ((f a s').1, (f a s').2.1, t ++ (f a s').2.2) := rfl
  rw [unfolded, first]

/-- Sequencing is associative. -/
theorem bind_bind {γ : Type} (m : Eff σ ε ω α) (f : α → Eff σ ε ω β) (g : β → Eff σ ε ω γ) :
    (m >>= f) >>= g = m >>= fun a => f a >>= g := by
  funext s
  have unfolded {α β : Type} (m : Eff σ ε ω α) (f : α → Eff σ ε ω β) (s : σ) : (m >>= f) s = match m s with
      | (.error e, s', t) => (.error e, s', t)
      | (.ok a, s', t) => ((f a s').1, (f a s').2.1, t ++ (f a s').2.2) := rfl
  simp only [unfolded]
  obtain ⟨e | a, s', t⟩ := m s
  · rfl
  · dsimp only
    obtain ⟨e | b, s'', t'⟩ := f a s'
    · rfl
    · simp only [List.append_assoc]

/-! ## Weakest preconditions -/

/-- From `s`, if every observation satisfies `rely`, then every observation satisfies `guar`, and if `m` returns
then it does so with `Q`. -/
structure wp (rely guar : ω → Prop) (m : Eff σ ε ω α) (Q : α → σ → List ω → Prop) (s : σ) : Prop where
  post : (∀ w ∈ (m s).2.2, rely w) →
    (∀ w ∈ (m s).2.2, guar w) ∧ ∀ a, (m s).1 = .ok a → Q a (m s).2.1 (m s).2.2

variable {rely guar : ω → Prop} {m : Eff σ ε ω α} {f : α → Eff σ ε ω β} {s : σ}
  {Q Q' : α → σ → List ω → Prop} {R : β → σ → List ω → Prop}

theorem wp_silent (trace : (m s).2.2 = []) (returns : ∀ a, (m s).1 = .ok a → Q a (m s).2.1 []) :
    wp rely guar m Q s := by
  refine ⟨fun _ => ?_⟩
  rw [trace]
  exact ⟨fun w mem => absurd mem List.not_mem_nil, returns⟩

theorem wp_pure {a : α} (h : Q a s []) : wp rely guar (pure a : Eff σ ε ω α) Q s := by
  refine wp_silent rfl fun a' eq => ?_
  cases eq
  exact h

theorem wp_state {Q : σ → σ → List ω → Prop} (h : Q s s []) : wp rely guar (state : Eff σ ε ω σ) Q s := by
  refine wp_silent rfl fun a' eq => ?_
  cases eq
  exact h

theorem wp_update {g : σ → σ} {Q : Unit → σ → List ω → Prop} (h : Q () (g s) []) :
    wp rely guar (update g : Eff σ ε ω Unit) Q s :=
  wp_silent rfl fun _ _ => h

theorem wp_fail {e : ε} : wp rely guar (fail e : Eff σ ε ω α) Q s := by
  refine wp_silent rfl fun a eq => ?_
  cases eq

theorem wp_emit {w : ω} {Q : Unit → σ → List ω → Prop} (good : rely w → guar w) (h : rely w → Q () s [w]) :
    wp rely guar (emit w : Eff σ ε ω Unit) Q s := by
  refine ⟨fun fine => ?_⟩
  have fineW : rely w := fine w List.mem_cons_self
  refine ⟨fun v mem => ?_, fun _ _ => h fineW⟩
  rw [List.mem_singleton.1 mem]
  exact good fineW

theorem wp_mono (h : wp rely guar m Q s) (returns : ∀ a s' t, Q a s' t → Q' a s' t) : wp rely guar m Q' s :=
  ⟨fun fine => ⟨(h.post fine).1, fun a eq => returns _ _ _ ((h.post fine).2 a eq)⟩⟩

/-- The rule for sequencing: the observations of the two parts are joined. -/
theorem wp_bind (h : wp rely guar m (fun a s' t => wp rely guar (f a) (fun b s'' t' => R b s'' (t ++ t')) s') s) :
    wp rely guar (m >>= f) R s := by
  constructor
  intro fine
  have unfolded : (m >>= f) s = match m s with
      | (.error e, s', t) => (.error e, s', t)
      | (.ok a, s', t) => ((f a s').1, (f a s').2.1, t ++ (f a s').2.2) := rfl
  have first := h.post
  rw [unfolded] at fine ⊢
  generalize m s = out at first fine ⊢
  obtain ⟨e | a, s', t⟩ := out
  · exact ⟨(first fine).1, fun b eq => by cases eq⟩
  · have fineFirst : ∀ w ∈ t, rely w := fun w mem => fine w (List.mem_append_left _ mem)
    have fineSecond : ∀ w ∈ (f a s').2.2, rely w := fun w mem => fine w (List.mem_append_right _ mem)
    obtain ⟨good, next⟩ := first fineFirst
    obtain ⟨good', last⟩ := (next a rfl).post fineSecond
    refine ⟨fun w mem => ?_, last⟩
    exact (List.mem_append.1 mem).elim (good w) (good' w)

/-- A first part with a specification of its own, then the rest. -/
theorem wp_then (h : wp rely guar m Q s)
    (rest : ∀ a s' t, Q a s' t → wp rely guar (f a) (fun b s'' t' => R b s'' (t ++ t')) s') :
    wp rely guar (m >>= f) R s :=
  wp_bind (wp_mono h rest)

theorem wp_state_bind {f : σ → Eff σ ε ω β} (h : wp rely guar (f s) R s) : wp rely guar (state >>= f) R s :=
  wp_bind (wp_state h)

theorem wp_update_bind {g : σ → σ} {f : Unit → Eff σ ε ω β} (h : wp rely guar (f ()) R (g s)) :
    wp rely guar (update g >>= f) R s :=
  wp_bind (wp_update h)

theorem wp_ite {c : Prop} [Decidable c] {m' : Eff σ ε ω α} (yes : c → wp rely guar m Q s)
    (no : ¬c → wp rely guar m' Q s) : wp rely guar (if c then m else m') Q s := by
  split
  · exact yes ‹_›
  · exact no ‹_›

/-! ## Outcomes -/

/-- From `s` the code returns with `Q`, or stops with an error and `E`. With `E` false this is total correctness,
with `E` true partial correctness. -/
def yields (m : Eff σ ε ω α) (Q : α → σ → List ω → Prop) (E : ε → σ → List ω → Prop) (s : σ) : Prop :=
  match m s with
  | (.ok a, s', t) => Q a s' t
  | (.error e, s', t) => E e s' t

section
variable {E E' : ε → σ → List ω → Prop}

theorem yields_pure {a : α} (h : Q a s []) : yields (pure a : Eff σ ε ω α) Q E s := h

theorem yields_update {g : σ → σ} {Q : Unit → σ → List ω → Prop} (h : Q () (g s) []) :
    yields (update g : Eff σ ε ω Unit) Q E s := h

theorem yields_fail {e : ε} (h : E e s []) : yields (fail e : Eff σ ε ω α) Q E s := h

theorem yields_emit {w : ω} {Q : Unit → σ → List ω → Prop} (h : Q () s [w]) :
    yields (emit w : Eff σ ε ω Unit) Q E s := h

/-- What holds however the code ends. -/
theorem yields_anyway (returns : ∀ a s' t, Q a s' t) (stops : ∀ e s' t, E e s' t) : yields m Q E s := by
  unfold yields
  split
  · exact returns _ _ _
  · exact stops _ _ _

theorem yields_mono (h : yields m Q E s) (returns : ∀ a s' t, Q a s' t → Q' a s' t)
    (stops : ∀ e s' t, E e s' t → E' e s' t) : yields m Q' E' s := by
  unfold yields at *
  split
  · rename_i a s' t out
    rw [out] at h
    exact returns a s' t h
  · rename_i e s' t out
    rw [out] at h
    exact stops e s' t h

/-- The rule for sequencing. -/
theorem yields_bind (h : yields m (fun a s' t => yields (f a) (fun b s'' t' => R b s'' (t ++ t'))
      (fun e s'' t' => E e s'' (t ++ t')) s') E s) : yields (m >>= f) R E s := by
  have unfolded : (m >>= f) s = match m s with
      | (.error e, s', t) => (.error e, s', t)
      | (.ok a, s', t) => ((f a s').1, (f a s').2.1, t ++ (f a s').2.2) := rfl
  unfold yields at *
  rw [unfolded]
  generalize m s = out at h ⊢
  obtain ⟨e | a, s', t⟩ := out
  · exact h
  · dsimp only at h ⊢
    generalize f a s' = rest at h ⊢
    obtain ⟨e | b, s'', t'⟩ := rest
    · exact h
    · exact h

/-- A first part with an outcome of its own, then the rest. -/
theorem yields_then {F : ε → σ → List ω → Prop} (h : yields m Q F s) (stops : ∀ e s' t, F e s' t → E e s' t)
    (rest : ∀ a s' t, Q a s' t → yields (f a) (fun b s'' t' => R b s'' (t ++ t')) (fun e s'' t' => E e s'' (t ++ t')) s') :
    yields (m >>= f) R E s :=
  yields_bind (yields_mono h rest stops)

theorem yields_state_bind {f : σ → Eff σ ε ω β} (h : yields (f s) R E s) : yields (state >>= f) R E s :=
  yields_bind h

theorem yields_update_bind {g : σ → σ} {f : Unit → Eff σ ε ω β} (h : yields (f ()) R E (g s)) :
    yields (update g >>= f) R E s :=
  yields_bind h

theorem yields_of_run {a : α} {s' : σ} {t : List ω} (run : m s = (.ok a, s', t)) (post : Q a s' t) : yields m Q E s := by
  unfold yields
  rw [run]
  exact post

theorem yields_ite {c : Prop} [Decidable c] {m' : Eff σ ε ω α} (yes : c → yields m Q E s)
    (no : ¬c → yields m' Q E s) : yields (if c then m else m') Q E s := by
  split
  · exact yes ‹_›
  · exact no ‹_›

/-- Code that returns with observations as `rely` has them satisfies what `wp` says of it. -/
theorem yields.and_wp (h : yields m Q E s) (fine : ∀ a s' t, Q a s' t → ∀ w ∈ t, rely w)
    (partly : wp rely guar m Q' s) : yields m (fun a s' t => Q a s' t ∧ Q' a s' t) E s := by
  have post := partly.post
  unfold yields at *
  generalize m s = out at h post ⊢
  obtain ⟨e | a, s', t⟩ := out
  · exact h
  · exact ⟨h, (post (fine a s' t h)).2 a rfl⟩

/-- The rule for loops: an invariant over what is left to do and what has been observed. -/
theorem yields_forEach {body : ι → Eff σ ε ω Unit} {I : List ι → σ → List ω → Prop} {xs : List ι} (start : I xs s [])
    (each : ∀ x xs s t, I (x :: xs) s t →
      yields (body x) (fun _ s' t' => I xs s' (t ++ t')) (fun e s' t' => E e s' (t ++ t')) s) :
    yields (forEach body xs) (fun _ s' t => I [] s' t) E s := by
  -- with the observations so far in front, by induction on what is left
  suffices general : ∀ t, I xs s t →
      yields (forEach body xs) (fun _ s' t' => I [] s' (t ++ t')) (fun e s' t' => E e s' (t ++ t')) s from
    general [] start
  clear start
  induction xs generalizing s with
  | nil =>
    intro t inv
    refine yields_pure ?_
    rwa [List.append_nil]
  | cons x xs ih =>
    intro t inv
    refine yields_then (each x xs s t inv) (fun _ _ _ stops => stops) fun _ s' t' next => ?_
    simpa only [List.append_assoc] using ih (t ++ t') next

end

/-! ## Executions that return -/

/-- What holds when `m` returns; an error is as good as no execution. -/
structure returns (m : Eff σ ε ω α) (Q : α → σ → Prop) (s : σ) : Prop where
  outcome : yields m (fun a s' _ => Q a s') (fun _ _ _ => True) s

section
variable {Q Q' : α → σ → Prop} {R : β → σ → Prop}

theorem returns_pure {a : α} (h : Q a s) : returns (pure a : Eff σ ε ω α) Q s := ⟨h⟩

theorem returns_fail {e : ε} : returns (fail e : Eff σ ε ω α) Q s := ⟨trivial⟩

theorem returns_emit {w : ω} {Q : Unit → σ → Prop} (h : Q () s) : returns (emit w : Eff σ ε ω Unit) Q s := ⟨h⟩

theorem returns_update {g : σ → σ} {Q : Unit → σ → Prop} (h : Q () (g s)) : returns (update g : Eff σ ε ω Unit) Q s :=
  ⟨h⟩

theorem returns_mono (h : returns m Q s) (weaker : ∀ a s', Q a s' → Q' a s') : returns m Q' s :=
  ⟨yields_mono h.outcome (fun a s' _ => weaker a s') fun _ _ _ _ => trivial⟩

theorem returns_bind (h : returns m Q s) (rest : ∀ a s', Q a s' → returns (f a) R s') : returns (m >>= f) R s :=
  ⟨yields_then h.outcome (fun _ _ _ _ => trivial) fun a s' _ post => (rest a s' post).outcome⟩

theorem returns_state_bind {f : σ → Eff σ ε ω β} (h : returns (f s) R s) : returns (state >>= f) R s :=
  ⟨yields_state_bind h.outcome⟩

theorem returns_update_bind {g : σ → σ} {f : Unit → Eff σ ε ω β} (h : returns (f ()) R (g s)) :
    returns (update g >>= f) R s :=
  ⟨yields_update_bind h.outcome⟩

theorem returns_ite {c : Prop} [Decidable c] {m' : Eff σ ε ω α} (yes : c → returns m Q s)
    (no : ¬c → returns m' Q s) : returns (if c then m else m') Q s :=
  ⟨yields_ite (fun h => (yes h).outcome) fun h => (no h).outcome⟩

theorem returns_true (m : Eff σ ε ω α) (s : σ) : returns m (fun _ _ => True) s := by
  constructor
  unfold yields
  obtain ⟨e | a, s', t⟩ := m s <;> trivial

theorem yields.toReturns {E : ε → σ → List ω → Prop} (h : yields m (fun a s' _ => Q a s') E s) : returns m Q s :=
  ⟨yields_mono h (fun _ _ _ post => post) fun _ _ _ _ => trivial⟩

/-- Code also satisfies what holds whenever it returns. -/
theorem yields.and_returns {Q : α → σ → List ω → Prop} {E : ε → σ → List ω → Prop} (h : yields m Q E s)
    (h' : returns m Q' s) : yields m (fun a s' t => Q a s' t ∧ Q' a s') E s := by
  have outcome := h'.outcome
  unfold yields at *
  generalize m s = out at h outcome ⊢
  obtain ⟨e | a, s', t⟩ := out
  · exact h
  · exact ⟨h, outcome⟩

/-- The state and the result of an execution that returned. -/
theorem returns.apply {a : α} {s' : σ} {t : List ω} (h : returns m Q s) (returned : m s = (.ok a, s', t)) : Q a s' := by
  have outcome := h.outcome
  unfold yields at outcome
  rwa [returned] at outcome

end

/-! ## Total correctness -/

/-- From `s` the code returns, with `Q`. -/
structure succeeds (m : Eff σ ε ω α) (Q : α → σ → List ω → Prop) (s : σ) : Prop where
  outcome : yields m Q (fun _ _ _ => False) s

theorem succeeds_pure {a : α} (h : Q a s []) : succeeds (pure a : Eff σ ε ω α) Q s := ⟨h⟩

theorem succeeds_emit {w : ω} {Q : Unit → σ → List ω → Prop} (h : Q () s [w]) :
    succeeds (emit w : Eff σ ε ω Unit) Q s := ⟨h⟩

theorem succeeds_mono (h : succeeds m Q s) (weaker : ∀ a s' t, Q a s' t → Q' a s' t) : succeeds m Q' s :=
  ⟨yields_mono h.outcome weaker fun _ _ _ h => h⟩

theorem succeeds_then (h : succeeds m Q s)
    (rest : ∀ a s' t, Q a s' t → succeeds (f a) (fun b s'' t' => R b s'' (t ++ t')) s') : succeeds (m >>= f) R s :=
  ⟨yields_then h.outcome (fun _ _ _ h => h) fun a s' t post => (rest a s' t post).outcome⟩

theorem succeeds_state_bind {f : σ → Eff σ ε ω β} (h : succeeds (f s) R s) : succeeds (state >>= f) R s :=
  ⟨yields_state_bind h.outcome⟩

theorem succeeds_update_bind {g : σ → σ} {f : Unit → Eff σ ε ω β} (h : succeeds (f ()) R (g s)) :
    succeeds (update g >>= f) R s :=
  ⟨yields_update_bind h.outcome⟩

theorem succeeds_ite {c : Prop} [Decidable c] {m' : Eff σ ε ω α} (yes : c → succeeds m Q s)
    (no : ¬c → succeeds m' Q s) : succeeds (if c then m else m') Q s :=
  ⟨yields_ite (fun h => (yes h).outcome) fun h => (no h).outcome⟩

theorem succeeds.exists (h : succeeds m Q s) : ∃ a s' t, m s = (.ok a, s', t) ∧ Q a s' t := by
  have outcome := h.outcome
  unfold yields at outcome
  generalize m s = out at outcome ⊢
  obtain ⟨e | a, s', t⟩ := out
  · exact outcome.elim
  · exact ⟨a, s', t, rfl, outcome⟩

theorem succeeds_of_run {a : α} {s' : σ} {t : List ω} (run : m s = (.ok a, s', t)) (post : Q a s' t) : succeeds m Q s :=
  ⟨yields_of_run run post⟩

theorem succeeds.returns (h : succeeds m Q s) : returns m (fun a s' => ∃ t, Q a s' t) s :=
  ⟨yields_mono h.outcome (fun _ _ t post => ⟨t, post⟩) fun _ _ _ _ => trivial⟩

/-! ## Relations kept -/

/-- Executions that return lead to a state related to the one they started in. -/
structure Keeps (R : σ → σ → Prop) (m : Eff σ ε ω α) : Prop where
  kept : ∀ s, returns m (fun _ s' => R s s') s

section
variable {R : σ → σ → Prop} [IsPreorder σ R]

theorem keeps_pure {a : α} : Keeps R (pure a : Eff σ ε ω α) := ⟨fun s => returns_pure (refl_of R s)⟩

theorem keeps_state : Keeps R (state : Eff σ ε ω σ) := ⟨fun s => ⟨refl_of R s⟩⟩

omit [IsPreorder σ R] in
theorem keeps_fail {e : ε} : Keeps R (fail e : Eff σ ε ω α) := ⟨fun _ => returns_fail⟩

theorem keeps_emit {w : ω} : Keeps R (emit w : Eff σ ε ω Unit) := ⟨fun s => returns_emit (refl_of R s)⟩

omit [IsPreorder σ R] in
theorem keeps_update {g : σ → σ} (h : ∀ s, R s (g s)) : Keeps R (update g : Eff σ ε ω Unit) :=
  ⟨fun s => returns_update (h s)⟩

theorem keeps_bind (first : Keeps R m) (rest : ∀ a, Keeps R (f a)) : Keeps R (m >>= f) :=
  ⟨fun s => returns_bind (first.kept s) fun a s' kept =>
    returns_mono ((rest a).kept s') fun _ _ kept' => trans_of R kept kept'⟩

omit [IsPreorder σ R] in
theorem keeps_ite {c : Prop} [Decidable c] {m' : Eff σ ε ω α} (yes : Keeps R m) (no : Keeps R m') :
    Keeps R (if c then m else m') :=
  ⟨fun s => returns_ite (fun _ => yes.kept s) fun _ => no.kept s⟩

theorem keeps_forEach {body : ι → Eff σ ε ω Unit} (each : ∀ x, Keeps R (body x)) (xs : List ι) :
    Keeps R (forEach body xs) := by
  induction xs with
  | nil => exact keeps_pure
  | cons x xs ih => exact keeps_bind (each x) fun _ => ih

end

/-! ## Code that does not see a part of the state -/

/-- The code does the same from the state changed by `g`, and what it leaves is changed by `g` too. -/
structure Respects (g : σ → σ) (m : Eff σ ε ω α) : Prop where
  apply : ∀ s, m (g s) = ((m s).1, g (m s).2.1, (m s).2.2)

section
variable {g : σ → σ}

theorem respects_pure {a : α} : Respects g (pure a : Eff σ ε ω α) := ⟨fun _ => rfl⟩

theorem respects_fail {e : ε} : Respects g (fail e : Eff σ ε ω α) := ⟨fun _ => rfl⟩

theorem respects_emit {w : ω} : Respects g (emit w : Eff σ ε ω Unit) := ⟨fun _ => rfl⟩

theorem respects_update {h : σ → σ} (comm : ∀ s, h (g s) = g (h s)) : Respects g (update h : Eff σ ε ω Unit) :=
  ⟨fun s => by rw [update, update, comm]⟩

theorem respects_bind (first : Respects g m) (rest : ∀ a, Respects g (f a)) : Respects g (m >>= f) := by
  constructor
  intro s
  have unfolded (s : σ) : (m >>= f) s = match m s with
      | (.error e, s', t) => (.error e, s', t)
      | (.ok a, s', t) => ((f a s').1, (f a s').2.1, t ++ (f a s').2.2) := rfl
  rw [unfolded, unfolded, first.apply s]
  generalize m s = out
  obtain ⟨e | a, s', t⟩ := out
  · rfl
  · dsimp only
    rw [(rest a).apply s']

theorem respects_state {f : σ → Eff σ ε ω β}
    (each : ∀ s, f (g s) (g s) = ((f s s).1, g (f s s).2.1, (f s s).2.2)) : Respects g (state >>= f) := by
  constructor
  intro s
  have unfolded (s : σ) : (state >>= f) s = ((f s s).1, (f s s).2.1, (f s s).2.2) := rfl
  rw [unfolded, unfolded, each]

/-- Code that reads nothing of the state but what `g` keeps. -/
theorem respects_reads {f : σ → Eff σ ε ω β} (same : ∀ s, f (g s) = f s) (each : ∀ s, Respects g (f s)) :
    Respects g (state >>= f) :=
  respects_state fun s => by rw [same, (each s).apply]

theorem respects_ite {c : Prop} [Decidable c] {m' : Eff σ ε ω α} (yes : Respects g m) (no : Respects g m') :
    Respects g (if c then m else m') := by
  split
  · exact yes
  · exact no

/-- What the code does from the changed state it does from the state itself. -/
theorem Respects.yields {E : ε → σ → List ω → Prop} (respects : Respects g m) (h : yields m Q E (g s)) :
    yields m (fun a s' t => Q a (g s') t) (fun e s' t => E e (g s') t) s := by
  unfold Eff.yields at *
  rw [respects.apply s] at h
  generalize m s = out at h ⊢
  obtain ⟨e | a, s', t⟩ := out
  · exact h
  · exact h

end

-- so that no goal about an outcome is evaluated in search of its head
attribute [irreducible] yields

end Eff

end Xv6.Lib
