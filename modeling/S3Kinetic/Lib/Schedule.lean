import Mathlib

/-!
# Any order of steps

A system of concurrent parts is a step function over events: `step s e` is `none` when `e` cannot
happen in `s`. `run` lets a scheduler `pick` the next event among those that can. What every step
preserves holds after a run (`inv_run`). If a measure falls at every step and some event is possible
until the system is through, every run with enough steps gets through (`finished_run`). `exec` takes
the steps of a given schedule, and what its steps preserve where they are allowed holds after it
(`inv_exec`).
-/

namespace Schedule

variable {σ ε : Type*} (step : σ → ε → Option σ) (events : List ε)

def enabled (s : σ) : List ε := events.filter fun e => (step s e).isSome

/-- Steps in the order that `pick` chooses among those that can be taken. -/
def run (pick : Nat → Nat) : Nat → σ → σ
  | 0, s => s
  | fuel + 1, s =>
    match (enabled step events s)[pick fuel % (enabled step events s).length]? with
    | some e => run pick fuel ((step s e).getD s)
    | none => s

variable {step events} {Inv F : σ → Prop} {measure : σ → Nat} {s : σ}

theorem enabled_ne_nil {e : ε} (he : e ∈ events) (hsome : (step s e).isSome = true) :
    enabled step events s ≠ [] :=
  List.ne_nil_of_mem (List.mem_filter.2 ⟨he, hsome⟩)

theorem exists_step {e : ε} (he : e ∈ enabled step events s) : ∃ s', step s e = some s' :=
  Option.isSome_iff_exists.1 (List.mem_filter.1 he).2

theorem inv_run (hstep : ∀ s e s', Inv s → step s e = some s' → Inv s') (pick : Nat → Nat)
    (fuel : Nat) (h : Inv s) :
    Inv (run step events pick fuel s) := by
  induction fuel generalizing s with
  | zero => exact h
  | succ fuel ih =>
    rw [run]
    cases hpick : (enabled step events s)[pick fuel % (enabled step events s).length]? with
    | none => exact h
    | some e =>
      obtain ⟨s', hs'⟩ := exists_step (List.mem_of_getElem? hpick)
      simp only [hs', Option.getD_some]
      exact ih (hstep _ _ _ h hs')

theorem finished_run (hstep : ∀ s e s', Inv s → step s e = some s' → Inv s')
    (hmeasure : ∀ s e s', Inv s → step s e = some s' → measure s' < measure s)
    (henabled : ∀ s, Inv s → ¬ F s → enabled step events s ≠ []) {pick : Nat → Nat}
    {fuel : Nat} (h : Inv s) (hfuel : measure s ≤ fuel) : F (run step events pick fuel s) := by
  induction fuel generalizing s with
  | zero =>
    by_contra hs
    obtain ⟨e, he⟩ := List.exists_mem_of_ne_nil _ (henabled s h hs)
    obtain ⟨s', hs'⟩ := exists_step he
    have := hmeasure _ _ _ h hs'
    omega
  | succ fuel ih =>
    rw [run]
    cases hpick : (enabled step events s)[pick fuel % (enabled step events s).length]? with
    | none =>
      by_contra hs
      have hpos := List.length_pos_iff.2 (henabled s h hs)
      rw [List.getElem?_eq_none_iff] at hpick
      exact absurd (Nat.mod_lt (pick fuel) hpos) (Nat.not_lt.2 hpick)
    | some e =>
      obtain ⟨s', hs'⟩ := exists_step (List.mem_of_getElem? hpick)
      have hlt := hmeasure _ _ _ h hs'
      simp only [hs', Option.getD_some]
      exact ih (hstep _ _ _ h hs') (by omega)

section Exec

variable (step)

/-- The state after these events; `none` when one of them cannot happen. -/
def exec (s : σ) (es : List ε) : Option σ := es.foldlM step s

/-- Every event of the schedule is allowed where it happens. -/
def Guarded (ok : σ → ε → Prop) : σ → List ε → Prop
  | _, [] => True
  | s, e :: es => ok s e ∧ ∀ s', step s e = some s' → Guarded ok s' es

variable {step}

theorem guarded_of_forall {ok : σ → ε → Prop} (h : ∀ s e, ok s e) (es : List ε) :
    Guarded step ok s es := by
  induction es generalizing s with
  | nil => trivial
  | cons e es ih => exact ⟨h s e, fun _ _ => ih⟩

theorem inv_exec {ok : σ → ε → Prop} (hstep : ∀ s e s', Inv s → ok s e → step s e = some s' →
    Inv s') (h : Inv s)
    {es : List ε} (hok : Guarded step ok s es) {s' : σ} (hexec : exec step s es = some s') :
    Inv s' := by
  induction es generalizing s with
  | nil =>
    cases hexec
    exact h
  | cons e es ih =>
    obtain ⟨t, ht, hrest⟩ := Option.bind_eq_some_iff.1 hexec
    exact ih (hstep s e t h hok.1 ht) (hok.2 t ht) hrest

end Exec

end Schedule
