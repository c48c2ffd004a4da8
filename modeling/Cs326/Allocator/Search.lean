import Cs326.Allocator.Represents

/-!
# The search for a free block

`reuse` is a search through the headers, of any list in memory whose blocks use no more than their size, once it can
read the name of its policy (`BlockList.reuse_eq`, `reuse_fault`). Whatever the policy, what it finds has room for the
request (`reuseList_spec`).
-/

namespace Cs326.Allocator

variable {h : Heap} {rs : List Region} {x : Header} {env : Env} {size next : Nat}

/-- `reuse` over a list of headers. -/
def reuseList (env : Env) (size : Nat) (xs : List Header) : Nat :=
  let algo := env.policy
  let need := uadd size sizeof_mem_block
  if algo = "first_fit" then
    walkList Header.addr (fun x _ _ => if need < x.size - x.usage then .inr x.addr else .inl ()) (fun _ => 0) xs ()
  else if algo = "best_fit" then
    walkList Header.addr (fun x _ acc => .inl
      (if need ≤ x.size - x.usage ∧ x.size - x.usage ≤ acc.1 then (x.size - x.usage, x.addr) else acc)) Prod.snd xs
      (INT_MAX, 0)
  else if algo = "worst_fit" then
    walkList Header.addr (fun x _ acc => .inl
      (if need ≤ x.size - x.usage ∧ acc.1 ≤ x.size - x.usage then (x.size - x.usage, x.addr) else acc)) Prod.snd xs
      (0, 0)
  else 0

/-- The blocks `xs` make up the list, wherever they come from. -/
structure BlockList (h : Heap) (xs : List Header) : Prop where
  chain : Chain h xs
  head_lt : h.g_head < 2 ^ 64
  addr_ne : ∀ x ∈ xs, x.addr ≠ 0
  accessible : ∀ x ∈ xs, ∀ field : Field, h.accessible (x.addr + field.offset) 8 = true
  usage_le : ∀ x ∈ xs, x.usage ≤ x.size

/-- The lists of programs are such lists. -/
theorem Represents.blockList (hr : Represents h rs) : BlockList h (flat rs) where
  chain := hr.chain
  head_lt := by
    rw [hr.head]
    cases hflat : flat rs with
    | nil => decide
    | cons x xs =>
      have hx : x ∈ flat rs := hflat ▸ List.mem_cons_self
      exact (Header.ok_of_mem hx).addr_lt
  addr_ne x hx := (Header.ok_of_mem hx).addr_ne
  accessible x hx field := accessible_header hr.mapped hx field
  usage_le x hx := by rcases (Header.ok_of_mem hx).usage_ok with h0 | h0 <;> omega

namespace BlockList

variable {xs ys : List Header}

theorem addr_lt (hb : BlockList h xs) : ∀ x ∈ xs, x.addr < 2 ^ 64 := by
  refine hb.chain.seg.forall_addr (P := fun a => a < 2 ^ 64) ?_ ?_
  · rw [← hb.chain.head]
    exact hb.head_lt
  · intro x e hat
    have hlt := h.load_lt x.addr .next
    rwa [hat] at hlt

/-- There is one list. -/
theorem unique (hb : BlockList h xs) (hb' : BlockList h ys) : xs = ys :=
  hb.chain.seg.unique hb'.chain.seg (hb.chain.head.symm.trans hb'.chain.head) hb.addr_ne hb'.addr_ne
    fun _ _ _ _ => At.unique

theorem get (hb : BlockList h xs) (hx : x ∈ xs) (hat : At h x next) (field : Field) :
    h.get x.addr field = .ok (x.field next field) := by
  rw [get_eq (hb.accessible x hx field), hat]

theorem traverse {α β : Type} (hb : BlockList h xs) (visit : Nat → α → Except Fault (α ⊕ β))
    (visitList : Header → Nat → α → α ⊕ β) (fin : α → β)
    (hvisit : ∀ x ∈ xs, ∀ e acc, At h x e → visit x.addr acc = .ok (visitList x e acc)) (acc : α) :
    h.traverse visit fin h.g_head acc = .ok (walkList Header.addr visitList fin xs acc) := by
  rw [hb.chain.head]
  exact traverse_eq visit visitList fin hb.chain.seg hb.addr_ne hb.addr_lt (fun x hx => hb.accessible x hx .next)
    hvisit acc

theorem free_space_eq (hb : BlockList h xs) (hx : x ∈ xs) (hat : At h x next) :
    h.free_space x.addr = .ok (x.size - x.usage) := by
  have hlt := h.load_lt x.addr .size
  rw [hat] at hlt
  unfold Heap.free_space
  rw [hb.get hx hat, hb.get hx hat]
  exact congrArg Except.ok (usub_eq (hb.usage_le x hx) hlt)

/-- **`reuse` searches the headers.** -/
theorem reuse_eq (hb : BlockList h xs) (hread : env.Readable) : reuse env size h = .ok (reuseList env size xs) := by
  unfold reuse reuseList
  dsimp only
  rw [if_neg (not_not_intro hread)]
  split
  · refine hb.traverse _ _ _ (fun x hx e acc hat => ?_) ()
    rw [hb.free_space_eq hx hat]
    split <;> simp_all [bind, Except.bind, pure, Except.pure]
  · split
    · refine hb.traverse _ _ _ (fun x hx e acc hat => ?_) (INT_MAX, 0)
      rw [hb.free_space_eq hx hat]
      rfl
    · split
      · refine hb.traverse _ _ _ (fun x hx e acc hat => ?_) (0, 0)
        rw [hb.free_space_eq hx hat]
        rfl
      · rfl

end BlockList

theorem reuse_eq (hr : Represents h rs) (hread : env.Readable) :
    reuse env size h = .ok (reuseList env size (flat rs)) := hr.blockList.reuse_eq hread

/-- Without the name of a policy there is no search. -/
theorem reuse_fault (h : Heap) (size : Nat) (hread : ¬env.Readable) : reuse env size h = .error .segv := if_pos hread

theorem readable_of_reuse (hres : reuse env size h = .ok next) : env.Readable := by
  by_contra hread
  rw [reuse_fault h size hread] at hres
  cases hres

/-- A call of `malloc` that returns has searched. -/
theorem readable_of_malloc {page : PageSize} {r : Heap × Nat} (hres : malloc page env size h = .ok r) :
    env.Readable := by
  obtain ⟨_, hreuse, _⟩ := bind_ok hres
  exact readable_of_reuse hreuse

/-- The address `p` is `NULL` or that of a block with room for the request. -/
def HasRoom (size : Nat) (xs : List Header) (p : Nat) : Prop :=
  p = 0 ∨ ∃ x ∈ xs, p = x.addr ∧ uadd size sizeof_mem_block ≤ x.size - x.usage

theorem reuseList_spec (env : Env) (size : Nat) (xs : List Header) : HasRoom size xs (reuseList env size xs) := by
  unfold reuseList
  dsimp only
  split
  · refine walkList_inv (I := fun _ => True) (fun x hx e acc _ => ⟨fun _ _ => trivial, fun b hb => ?_⟩)
      (fun _ _ => .inl rfl) trivial
    split at hb
    · obtain rfl := Sum.inr.inj hb
      exact .inr ⟨x, hx, rfl, Nat.le_of_lt ‹_›⟩
    · cases hb
  · split
    · refine walkList_inv (I := fun acc : Nat × Nat => HasRoom size xs acc.2)
        (fun x hx e acc h => ⟨fun acc' hb => ?_, fun b hb => ?_⟩) (fun _ h => h) (.inl rfl)
      · obtain rfl := Sum.inl.inj hb
        split
        · exact .inr ⟨x, hx, rfl, And.left ‹_›⟩
        · exact h
      · cases hb
    · split
      · refine walkList_inv (I := fun acc : Nat × Nat => HasRoom size xs acc.2)
          (fun x hx e acc h => ⟨fun acc' hb => ?_, fun b hb => ?_⟩) (fun _ h => h) (.inl rfl)
        · obtain rfl := Sum.inl.inj hb
          split
          · exact .inr ⟨x, hx, rfl, And.left ‹_›⟩
          · exact h
        · cases hb
      · exact .inl rfl

end Cs326.Allocator
