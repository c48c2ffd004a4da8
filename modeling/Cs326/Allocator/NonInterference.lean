import Cs326.Allocator.Client

/-!
# Live allocations do not interfere

In every state of a run the payloads of the live allocations are disjoint, apart from every header of the list, and
mapped; and a call of the allocator changes no byte of them. It returns, where it can read the name of its policy.
-/

namespace Cs326.Allocator

variable {page : PageSize} {tr : List (Call × Nat)} {w : Client} {c : Call} {h h' : Heap} {rs rs' : List Region}
  {p a : Nat}

/-- A live allocation lies in the payload of a block in use. -/
theorem Inv.exists_inUse (hI : Inv tr w rs) {a : Nat × Nat} (ha : a ∈ w.live) :
    ∃ u, InUse (flat rs) a.1 u ∧ a.2 + 48 ≤ u := by
  obtain ⟨u, hu⟩ := (hI.live a.1).mp (List.mem_map_of_mem ha)
  exact ⟨u, hu, hI.room a.1 a.2 u ha hu⟩

/-- A call of the allocator keeps the bytes of the payloads in use. -/
theorem Effect.keep (he : Effect c h rs p h' rs') (hw : ∀ ptr b, c ≠ .write ptr b) {q u : Nat}
    (hu : InUse (flat rs) q u) (h₁ : q ≤ a) (h₂ : a + 48 < q + u) : h'.mem a = h.mem a := by
  cases he with
  | fails _ _ hh _ => rw [hh]
  | allocates _ _ _ hall => exact hall.keep q u hu a h₁ h₂
  | frees _ _ _ hall => exact hall.keep q u hu a h₁ h₂
  | writes hreq hends =>
    cases c with
    | write ptr b => exact absurd rfl (hw ptr b)
    | malloc => cases hreq
    | calloc => cases hreq
    | realloc _ ptr => by_cases hptr : ptr = 0 <;> simp [Call.request, Call.ends, hptr] at hreq hends
    | free => cases hends

/-- **Non-interference.** -/
theorem non_interference (h : Reaches page tr w) :
    w.live.Pairwise (fun a b => a.1 ≠ b.1 ∧ (a.1 + a.2 ≤ b.1 ∨ b.1 + b.2 ≤ a.1)) ∧
    (∃ xs, Chain w.heap xs ∧
      ∀ a ∈ w.live, ∀ x ∈ xs, a.1 + a.2 ≤ x.addr ∨ x.addr + sizeof_mem_block ≤ a.1) ∧
    (∀ a ∈ w.live, ∃ r ∈ w.heap.mapped, r.1 ≤ a.1 ∧ a.1 + a.2 ≤ r.1 + r.2) ∧
    ∀ c, Permitted page w c → (c.Readable → ∃ h' p, c.run page w.heap = .ok (h', p)) ∧
      ∀ h' p, c.run page w.heap = .ok (h', p) → (∀ ptr b, c ≠ .write ptr b) →
        ∀ a ∈ w.live, ∀ i, a.1 ≤ i → i < a.1 + a.2 → h'.mem i = w.heap.mem i := by
  obtain ⟨rs, hI⟩ := h.inv
  have hr := hI.represents
  refine ⟨?_, ⟨flat rs, hr.chain, fun a ha x hx => ?_⟩, fun a ha => ?_, fun c hc => ⟨fun hread => ?_, ?_⟩⟩
  · refine (List.pairwise_map.mp hI.nodup).imp_of_mem fun {a b} ha hb hne => ⟨hne, ?_⟩
    obtain ⟨u, hu, hroom⟩ := hI.exists_inUse ha
    obtain ⟨v, hv, hroom'⟩ := hI.exists_inUse hb
    have := hu.apart hr.apart hv hne
    omega
  · obtain ⟨u, hu, hroom⟩ := hI.exists_inUse ha
    have := hu.header_apart hr.apart hx
    unfold sizeof_mem_block
    omega
  · obtain ⟨u, hu, hroom⟩ := hI.exists_inUse ha
    obtain ⟨r, hrr, hlo, hhi⟩ := hu.mem_range
    exact ⟨r, hr.mapped r hrr, by omega, by omega⟩
  · obtain ⟨h', p, _, hres, _⟩ := hI.effect page hc hread
    exact ⟨h', p, hres⟩
  · intro h' p hres hw a ha i h₁ h₂
    obtain ⟨rs', he⟩ := hI.effect_of_run hc hres
    obtain ⟨u, hu, hroom⟩ := hI.exists_inUse ha
    exact he.keep hw hu h₁ (by omega)

/-- Two allocations in one page, of which freeing one keeps the other. -/
theorem non_interference_two : ∃ tr w, Reaches .default tr w ∧ w.live = [(4200, 8), (4144, 8)] ∧
    ∃ h', free (.mapping 0) 4200 w.heap = .ok h' ∧ ∀ i, 4144 ≤ i → i < 4152 → h'.mem i = w.heap.mem i := by
  obtain ⟨h, rs, hreach, _⟩ := reaches_malloc_two
  obtain ⟨hreturns, hkeep⟩ := (non_interference hreach).2.2.2 (.free (.mapping 0) 4200) List.mem_cons_self
  obtain ⟨h', p, hres⟩ := hreturns trivial
  obtain ⟨h₁, hfree, he⟩ := bind_ok hres
  obtain ⟨rfl, _⟩ := Prod.mk.inj (Except.ok.inj he)
  exact ⟨_, _, hreach, rfl, h₁, hfree, hkeep h₁ p hres (fun _ _ hw => by cases hw) (4144, 8) (by simp)⟩

end Cs326.Allocator
