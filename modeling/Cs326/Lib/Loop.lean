/-!
# Loops

A loop whose body is a partial function: it goes on as long as there is a next state. `loop` runs it with fuel, and
`Ends next s t` says that enough fuel leads from `s` to the state `t` where it stops. A run is taken apart from the
front (`ends_iff_next`, `ends_iff_stop`), keeps what the body keeps (`Ends.invariant`), and does not end where there is
always a next state (`not_ends`).
-/

namespace Cs326

universe u

variable {σ : Type u} {next : σ → Option σ} {s t u : σ}

def loop (next : σ → Option σ) : Nat → σ → Option σ
  | 0, _ => none
  | fuel + 1, s => match next s with
    | none => some s
    | some t => loop next fuel t

/-- The loop stops at `t`. -/
def Ends (next : σ → Option σ) (s t : σ) : Prop := ∃ fuel, loop next fuel s = some t

theorem loop_next (h : next s = some t) (fuel : Nat) : loop next (fuel + 1) s = loop next fuel t := by
  rw [loop, h]

theorem loop_stop (h : next s = none) (fuel : Nat) : loop next (fuel + 1) s = some s := by
  rw [loop, h]

/-- The first round. -/
theorem ends_iff_next (h : next s = some u) : Ends next s t ↔ Ends next u t := by
  constructor
  · intro hends
    obtain ⟨fuel, hfuel⟩ := hends
    cases fuel with
    | zero => cases hfuel
    | succ fuel => exact ⟨fuel, (loop_next h fuel).symm.trans hfuel⟩
  · intro hends
    obtain ⟨fuel, hfuel⟩ := hends
    exact ⟨fuel + 1, (loop_next h fuel).trans hfuel⟩

/-- No round. -/
theorem ends_iff_stop (h : next s = none) : Ends next s t ↔ t = s := by
  constructor
  · intro hends
    obtain ⟨fuel, hfuel⟩ := hends
    cases fuel with
    | zero => cases hfuel
    | succ fuel => exact (Option.some.inj ((loop_stop h fuel).symm.trans hfuel)).symm
  · intro hts
    exact ⟨1, hts ▸ loop_stop h 0⟩

/-- **Invariant rule.** -/
theorem Ends.invariant {I : σ → Prop} (hstep : ∀ {s t}, I s → next s = some t → I t) (h : Ends next s t) (hs : I s) :
    I t ∧ next t = none := by
  obtain ⟨fuel, hfuel⟩ := h
  induction fuel generalizing s with
  | zero => cases hfuel
  | succ fuel ih =>
    cases hnext : next s with
    | none =>
      obtain rfl := Option.some.inj ((loop_stop hnext fuel).symm.trans hfuel)
      exact ⟨hs, hnext⟩
    | some u => exact ih (hstep hs hnext) ((loop_next hnext fuel).symm.trans hfuel)

/-- **A loop that always goes on does not end.** -/
theorem not_ends {I : σ → Prop} (hstep : ∀ {s}, I s → ∃ t, next s = some t ∧ I t) (hs : I s) : ¬Ends next s t := by
  intro h
  obtain ⟨fuel, hfuel⟩ := h
  induction fuel generalizing s with
  | zero => cases hfuel
  | succ fuel ih =>
    obtain ⟨u, hnext, hu⟩ := hstep hs
    exact ih hu ((loop_next hnext fuel).symm.trans hfuel)

end Cs326
