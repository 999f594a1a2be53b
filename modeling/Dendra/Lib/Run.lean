/-!
# Runs of a step relation

`Reach init step ok` is the set of states that runs from `init` reach when each step also meets the
guard `ok`. Safety is an invariant with a step lemma (`Reach.invariant`); a run under a stronger guard
is a run under a weaker one (`Reach.mono`).
-/

namespace Dendra

variable {σ α : Type} {init : σ → Prop} {step : σ → α → σ → Prop} {ok ok' : σ → α → Prop}

/-- The states reached by runs from `init` whose steps all meet `ok`. -/
inductive Reach (init : σ → Prop) (step : σ → α → σ → Prop) (ok : σ → α → Prop) : σ → Prop
  | init {s : σ} (h : init s) : Reach init step ok s
  | step {s s' : σ} {a : α} (h : Reach init step ok s) (hok : ok s a) (hs : step s a s') :
      Reach init step ok s'

namespace Reach

/-- What holds at the start and is preserved by every step of a run holds in every state reached. -/
theorem invariant {P : σ → Prop} (h0 : ∀ s, init s → P s)
    (hstep : ∀ s a s', Reach init step ok s → P s → ok s a → step s a s' → P s') {s : σ}
    (h : Reach init step ok s) : P s := by
  induction h with
  | init h => exact h0 _ h
  | step h hok hs ih => exact hstep _ _ _ h ih hok hs

/-- A weaker guard allows more runs. -/
theorem mono (hok : ∀ s a, ok s a → ok' s a) {s : σ} (h : Reach init step ok s) :
    Reach init step ok' s := by
  induction h with
  | init h => exact .init h
  | step _ ha hs ih => exact .step ih (hok _ _ ha) hs

/-- A list of actions that a step function can do, as a run. -/
theorem foldlM {f : σ → α → Option σ} {s s' : σ} {l : List α}
    (h : Reach init (fun s a s' => f s a = some s') ok s) (hok : ∀ a ∈ l, ∀ s, ok s a)
    (hl : l.foldlM f s = some s') : Reach init (fun s a s' => f s a = some s') ok s' := by
  induction l generalizing s with
  | nil => exact Option.some.inj hl ▸ h
  | cons a l ih =>
    rw [List.foldlM_cons] at hl
    obtain ⟨s₁, hs₁, hl⟩ := Option.bind_eq_some_iff.1 hl
    exact ih (.step h (hok a List.mem_cons_self s) hs₁) (fun b hb => hok b (List.mem_cons_of_mem a hb)) hl

end Reach

end Dendra
