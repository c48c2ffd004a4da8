import Mathlib.Data.List.Basic

/-!
# Labelled runs

A program is a relation `R s ev t`: one step from `s` to `t` emits the events `ev`, oldest first. A run collects the
events of its steps (`Run`). What one step preserves, a run preserves (`Run.invariant`); where the step needs a bound on
the whole trace that every prefix of the trace inherits, `Run.invariant_of_prefix` carries it along. Where the steps are
those of a function, a list of inputs is executed (`Run.execute`).
-/

namespace Cs326

variable {σ ε : Type*} {R : σ → List ε → σ → Prop} {s t u : σ} {tr ev : List ε}

/-- `Run R s tr t`: steps of `R` lead from `s` to `t` and emit `tr`. -/
inductive Run (R : σ → List ε → σ → Prop) (s : σ) : List ε → σ → Prop
  | nil : Run R s [] s
  | snoc {tr ev : List ε} {t u : σ} : Run R s tr t → R t ev u → Run R s (tr ++ ev) u

namespace Run

theorem single (h : R s ev t) : Run R s ev t := by
  simpa using Run.snoc Run.nil h

/-- Runs compose. -/
theorem trans {tr' : List ε} (h : Run R s tr t) (h' : Run R t tr' u) : Run R s (tr ++ tr') u := by
  induction h' with
  | nil => simpa using h
  | snoc _ hs ih => rw [← List.append_assoc]; exact ih.snoc hs

/-- **Simulation rule.** -/
theorem map {σ' ε' : Type*} {R' : σ' → List ε' → σ' → Prop} {f : σ → σ'} {g : ε → ε'}
    (hstep : ∀ {t ev u}, R t ev u → R' (f t) (ev.map g) (f u)) (h : Run R s tr t) : Run R' (f s) (tr.map g) (f t) := by
  induction h with
  | nil => exact .nil
  | snoc _ hs ih =>
    rw [List.map_append]
    exact ih.snoc (hstep hs)

/-- **Invariant rule.** -/
theorem invariant {I : List ε → σ → Prop} (h0 : I [] s)
    (hstep : ∀ {tr t ev u}, I tr t → R t ev u → I (tr ++ ev) u) (h : Run R s tr t) : I tr t := by
  induction h with
  | nil => exact h0
  | snoc _ hs ih => exact hstep ih hs

/-- **Invariant rule under a property of the whole trace** that its prefixes share. -/
theorem invariant_of_prefix {P : List ε → Prop} {I : List ε → σ → Prop} (hP : ∀ a b, P (a ++ b) → P a)
    (h0 : P [] → I [] s) (hstep : ∀ {tr t ev u}, I tr t → R t ev u → P (tr ++ ev) → I (tr ++ ev) u)
    (h : Run R s tr t) (htr : P tr) : I tr t := by
  induction h with
  | nil => exact h0 htr
  | snoc _ hs ih => exact hstep (ih (hP _ _ htr)) hs htr

/-- **The step that emits an event** of the trace. -/
theorem at_event {a c : List ε} {e : ε} (h : Run R s (a ++ e :: c) u) : ∃ tr₁ x y tr₂ t t', a = tr₁ ++ x ∧
    c = y ++ tr₂ ∧ Run R s tr₁ t ∧ R t (x ++ e :: y) t' ∧ Run R t' tr₂ u := by
  generalize htr : a ++ e :: c = tr at h
  induction h generalizing a c with
  | nil => exact absurd htr (by simp)
  | @snoc tr ev t u h hs ih =>
    rcases List.append_eq_append_iff.mp htr with ⟨as, rfl, he⟩ | ⟨bs, rfl, rfl⟩
    · cases as with
      | nil =>
        obtain rfl : ev = e :: c := he.symm
        exact ⟨a, [], c, [], t, u, (List.append_nil _).symm, (List.append_nil _).symm, by simpa using h, hs, .nil⟩
      | cons e' as =>
        obtain ⟨rfl, rfl⟩ := List.cons.inj he
        obtain ⟨tr₁, x, y, tr₂, t₁, t₂, hx, hy, h₁, hs₁, h₂⟩ := ih rfl
        refine ⟨tr₁, x, y, tr₂ ++ ev, t₁, t₂, hx, ?_, h₁, hs₁, h₂.snoc hs⟩
        rw [← List.append_assoc, ← hy]
        rfl
    · exact ⟨tr, bs, c, [], t, u, rfl, (List.append_nil _).symm, h, hs, .nil⟩

/-- A state property that every step keeps. -/
theorem stable {I : σ → Prop} (hstep : ∀ {t ev u}, I t → R t ev u → I u) (h : Run R s tr t) (hs : I s) : I t :=
  h.invariant (I := fun _ t => I t) hs hstep

/-! ## Steps of a function -/

section

variable {κ : Type*} {ks : List κ}

/-- The trace and the state behind the inputs `ks`, where every step goes through. -/
def execute (step : κ → σ → Option (σ × List ε)) : List κ → σ → Option (List ε × σ)
  | [], s => some ([], s)
  | k :: ks, s => (step k s).bind fun r => (execute step ks r.1).map fun q => (r.2 ++ q.1, q.2)

theorem execute_cons {step : κ → σ → Option (σ × List ε)} {k : κ} : execute step (k :: ks) s = some (tr, t) ↔
    ∃ u ev tr', step k s = some (u, ev) ∧ execute step ks u = some (tr', t) ∧ tr = ev ++ tr' := by
  rw [execute, Option.bind_eq_some_iff]
  constructor
  · rintro ⟨⟨u, ev⟩, hs, hrest⟩
    obtain ⟨⟨tr', t'⟩, hr, he⟩ := Option.map_eq_some_iff.mp hrest
    obtain ⟨rfl, rfl⟩ := Prod.mk.inj he
    exact ⟨u, ev, tr', hs, hr, rfl⟩
  · rintro ⟨u, ev, tr', hs, hr, rfl⟩
    exact ⟨(u, ev), hs, Option.map_eq_some_iff.mpr ⟨(tr', t), hr, rfl⟩⟩

theorem of_execute {step : κ → σ → Option (σ × List ε)} (hR : ∀ k ∈ ks, ∀ s t ev, step k s = some (t, ev) → R s ev t)
    (h : execute step ks s = some (tr, t)) : Run R s tr t := by
  induction ks generalizing s tr with
  | nil =>
    cases h
    exact .nil
  | cons k ks ih =>
    obtain ⟨u, ev, tr', hs, hr, rfl⟩ := execute_cons.mp h
    have hfirst := hR k List.mem_cons_self _ _ _ hs
    exact (Run.single hfirst).trans (ih (fun k hk => hR k (List.mem_cons_of_mem _ hk)) hr)

/-- A step that emits its input. -/
def labelled (step : κ → σ → Option σ) (k : κ) (s : σ) : Option (σ × List κ) := (step k s).map fun t => (t, [k])

theorem labelled_eq_some {step : κ → σ → Option σ} {k : κ} {l : List κ} :
    labelled step k s = some (t, l) ↔ step k s = some t ∧ l = [k] := by
  unfold labelled
  cases step k s with
  | none => simp
  | some u => simp [eq_comm]

/-- What is emitted is what was put in. -/
theorem execute_labelled {step : κ → σ → Option σ} {l : List κ} (h : execute (labelled step) ks s = some (l, t)) :
    l = ks := by
  induction ks generalizing s l with
  | nil =>
    cases h
    rfl
  | cons k ks ih =>
    obtain ⟨u, ev, l', hs, hr, rfl⟩ := execute_cons.mp h
    rw [(labelled_eq_some.mp hs).2, ih hr]
    rfl

end

end Run

end Cs326
