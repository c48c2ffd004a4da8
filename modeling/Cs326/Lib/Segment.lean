import Mathlib.Data.List.Basic

/-!
# Linked segments

A node of a linked structure sits at an address `addr x` and names the address of the next node. `Seg At l e` says that
the nodes `l` are linked in this order and the last one names `e`; `At x next` is whatever it takes for the node `x` to
be in place with `next` as its link. Segments split and join at any node (`seg_append`) and survive every change that
keeps their nodes (`Seg.mono`). A list that ends in `0` is determined by its first address (`Seg.unique`), so it passes
no address twice (`Seg.nodup`).

`walk` is the loop `while (cur != 0) { ...; cur = next(cur); }` with an early exit, run with fuel. Over a segment that
ends in `0` it is the fold `walkList` (`walk_seg`), so it terminates.
-/

namespace Cs326

section Seg

variable {ν : Type*} (addr : ν → Nat)

/-- The address of the first node of `l`, or `e` when there is none. -/
def first : List ν → Nat → Nat
  | [], e => e
  | x :: _, _ => addr x

/-- The nodes of `l` are linked, and the last one to `e`. -/
def Seg (At : ν → Nat → Prop) : List ν → Nat → Prop
  | [], _ => True
  | x :: l, e => At x (first addr l e) ∧ Seg At l e

variable {addr} {At At' : ν → Nat → Prop} {l l' l₁ l₂ : List ν} {x : ν} {e e' : Nat}

@[simp] theorem first_nil : first addr [] e = e := rfl

@[simp] theorem first_cons : first addr (x :: l) e = addr x := rfl

theorem first_append : first addr (l₁ ++ l₂) e = first addr l₁ (first addr l₂ e) := by
  cases l₁ <;> rfl

theorem seg_append : Seg addr At (l₁ ++ l₂) e ↔ Seg addr At l₁ (first addr l₂ e) ∧ Seg addr At l₂ e := by
  induction l₁ with
  | nil => simp [Seg]
  | cons x l ih => rw [List.cons_append, Seg, Seg, ih, first_append, and_assoc]

/-- A segment survives what its nodes survive. -/
theorem Seg.mono (h : Seg addr At l e) (hmono : ∀ x ∈ l, ∀ e, At x e → At' x e) : Seg addr At' l e := by
  induction l with
  | nil => trivial
  | cons x l ih =>
    exact ⟨hmono x List.mem_cons_self _ h.1, ih h.2 fun y hy => hmono y (List.mem_cons_of_mem _ hy)⟩

/-- Every node of a segment is in place. -/
theorem Seg.at_of_mem (h : Seg addr At l e) (hx : x ∈ l) : ∃ e', At x e' := by
  obtain ⟨l₁, l₂, rfl⟩ := List.append_of_mem hx
  exact ⟨_, (seg_append.mp h).2.1⟩

/-- The addresses of a segment are where it starts and the links. -/
theorem Seg.forall_addr {P : Nat → Prop} (h : Seg addr At l e) (hfirst : P (first addr l e))
    (hlink : ∀ x e, At x e → P e) : ∀ x ∈ l, P (addr x) := by
  induction l with
  | nil => simp
  | cons x l ih => exact List.forall_mem_cons.mpr ⟨hfirst, ih h.2 (hlink x _ h.1)⟩

/-- **A list in memory is determined by where it starts**, when a node is by its address. -/
theorem Seg.unique (h : Seg addr At l 0) (h' : Seg addr At l' 0) (hfirst : first addr l 0 = first addr l' 0)
    (hne : ∀ x ∈ l, addr x ≠ 0) (hne' : ∀ x ∈ l', addr x ≠ 0)
    (hat : ∀ x y e e', addr x = addr y → At x e → At y e' → x = y ∧ e = e') : l = l' := by
  induction l generalizing l' with
  | nil =>
    cases l' with
    | nil => rfl
    | cons y l' => exact absurd hfirst.symm (hne' y List.mem_cons_self)
  | cons x l ih =>
    cases l' with
    | nil => exact absurd hfirst (hne x List.mem_cons_self)
    | cons y l' =>
      obtain ⟨rfl, hlink⟩ := hat x y _ _ hfirst h.1 h'.1
      rw [ih h.2 h'.2 hlink (fun z hz => hne z (List.mem_cons_of_mem _ hz))
        fun z hz => hne' z (List.mem_cons_of_mem _ hz)]

/-- The nodes of a list that ends in `0` have distinct addresses. -/
theorem Seg.nodup (h : Seg addr At l 0) (hne : ∀ x ∈ l, addr x ≠ 0)
    (hat : ∀ x y e e', addr x = addr y → At x e → At y e' → x = y ∧ e = e') : (l.map addr).Nodup := by
  induction l with
  | nil => exact .nil
  | cons x l ih =>
    have hne' : ∀ y ∈ l, addr y ≠ 0 := fun y hy => hne y (List.mem_cons_of_mem _ hy)
    refine List.nodup_cons.mpr ⟨fun hm => ?_, ih h.2 hne'⟩
    obtain ⟨y, hy, hxy⟩ := List.mem_map.mp hm
    obtain ⟨l₁, l₂, rfl⟩ := List.append_of_mem hy
    have hsuffix : Seg addr At (y :: l₂) 0 := (seg_append.mp h.2).2
    -- from the address they share both lists go on alike, but one is longer
    obtain ⟨_, hlink⟩ := hat x y _ _ hxy.symm h.1 hsuffix.1
    have heq : l₁ ++ y :: l₂ = l₂ :=
      Seg.unique h.2 hsuffix.2 hlink hne' (fun z hz => hne' z (by simp [hz])) hat
    have hlen := congrArg List.length heq
    simp at hlen
    omega

/-- The last node of a segment gets a new link. -/
theorem Seg.retarget (h : Seg addr At (l ++ [x]) e) (hmono : ∀ y ∈ l, ∀ e, At y e → At' y e) (hx : At x e → At' x e') :
    Seg addr At' (l ++ [x]) e' := by
  rw [seg_append] at h ⊢
  exact ⟨h.1.mono hmono, hx h.2.1, trivial⟩

end Seg

section Walk

variable {ν α β ε : Type*}

/-- The loop `while (cur != 0)` that starts at `cur` with `acc`: `visit` exits with a result or goes on to the next
node; `fin` gives the result at the end of the list. -/
def walk (next : Nat → Except ε Nat) (visit : Nat → α → Except ε (α ⊕ β)) (fin : α → β) (diverges : ε) :
    Nat → Nat → α → Except ε β
  | 0, _, _ => .error diverges
  | n + 1, cur, acc =>
    if cur = 0 then .ok (fin acc)
    else
      match visit cur acc with
      | .error e => .error e
      | .ok (.inr b) => .ok b
      | .ok (.inl acc') =>
        match next cur with
        | .error e => .error e
        | .ok nx => walk next visit fin diverges n nx acc'

/-- The same loop over the nodes of a list whose last node links to `0`. -/
def walkList (addr : ν → Nat) (visit : ν → Nat → α → α ⊕ β) (fin : α → β) : List ν → α → β
  | [], acc => fin acc
  | x :: l, acc =>
    match visit x (first addr l 0) acc with
    | .inr b => b
    | .inl acc' => walkList addr visit fin l acc'

variable {addr : ν → Nat} {At : ν → Nat → Prop} {next : Nat → Except ε Nat} {visit : Nat → α → Except ε (α ⊕ β)}
  {visitList : ν → Nat → α → α ⊕ β} {fin : α → β} {diverges : ε} {l : List ν} {n : Nat}

/-- **The loop is a fold**, when its body is. -/
theorem walk_seg (h : Seg addr At l 0) (hne : ∀ x ∈ l, addr x ≠ 0)
    (hnext : ∀ x ∈ l, ∀ e, At x e → next (addr x) = .ok e)
    (hvisit : ∀ x ∈ l, ∀ e acc, At x e → visit (addr x) acc = .ok (visitList x e acc)) (hn : l.length < n) (acc : α) :
    walk next visit fin diverges n (first addr l 0) acc = .ok (walkList addr visitList fin l acc) := by
  induction l generalizing n acc with
  | nil =>
    obtain ⟨n, rfl⟩ : ∃ k, n = k + 1 := ⟨n - 1, by simp at hn; omega⟩
    simp [walk, walkList]
  | cons x l ih =>
    obtain ⟨n, rfl⟩ : ∃ k, n = k + 1 := ⟨n - 1, by simp at hn; omega⟩
    have hat : At x (first addr l 0) := h.1
    have hx : x ∈ x :: l := List.mem_cons_self
    rw [first_cons, walk, if_neg (hne x hx), hvisit x hx _ acc hat, walkList]
    cases visitList x (first addr l 0) acc with
    | inr b => rfl
    | inl acc' =>
      simp only [hnext x hx _ hat]
      refine ih h.2 (fun y hy => hne y (List.mem_cons_of_mem _ hy)) (fun y hy => hnext y (List.mem_cons_of_mem _ hy))
        (fun y hy => hvisit y (List.mem_cons_of_mem _ hy)) ?_ acc'
      simpa using hn

/-- What every visit keeps, and every exit has, the result has. -/
theorem walkList_inv {I : α → Prop} {P : β → Prop} (hvisit : ∀ x ∈ l, ∀ e acc, I acc →
    (∀ acc', visitList x e acc = .inl acc' → I acc') ∧ ∀ b, visitList x e acc = .inr b → P b)
    (hfin : ∀ acc, I acc → P (fin acc)) {acc : α} (h : I acc) : P (walkList addr visitList fin l acc) := by
  induction l generalizing acc with
  | nil => exact hfin acc h
  | cons x l ih =>
    obtain ⟨hinl, hinr⟩ := hvisit x List.mem_cons_self (first addr l 0) acc h
    rw [walkList]
    split
    · exact hinr _ ‹_›
    · exact ih (fun y hy => hvisit y (List.mem_cons_of_mem _ hy)) (hinl _ ‹_›)

/-- The loop passes over nodes whose visits go on. -/
theorem walkList_skip {acc : α} (h : ∀ x ∈ l, ∀ e, visitList x e acc = .inl acc) (rest : List ν) :
    walkList addr visitList fin (l ++ rest) acc = walkList addr visitList fin rest acc := by
  induction l with
  | nil => rfl
  | cons x l ih =>
    rw [List.cons_append, walkList, h x List.mem_cons_self]
    exact ih fun y hy => h y (List.mem_cons_of_mem _ hy)

/-- A loop without an exit is a fold. -/
theorem walkList_foldl (f : α → ν → α) (acc : α) :
    walkList addr (fun x _ acc => .inl (f acc x)) fin l acc = fin (l.foldl f acc) := by
  induction l generalizing acc with
  | nil => rfl
  | cons x l ih => exact ih (f acc x)

/-- A loop that exits at the first node with a property. -/
theorem walkList_find (p : ν → Prop) [DecidablePred p] (result : ν → β) {fin : Unit → β} :
    walkList addr (fun x _ (_ : Unit) => if p x then .inr (result x) else .inl ()) fin l () =
      ((l.find? fun x => p x).map result).getD (fin ()) := by
  induction l with
  | nil => rfl
  | cons x l ih =>
    rw [walkList]
    by_cases hp : p x
    · simp [hp]
    · simpa [hp] using ih

/-- The loop that looks for the node whose link is `target` finds it. -/
theorem walkList_link {target : Nat} {result : ν → β} {fin : Unit → β} {rest : List ν} {z : ν}
    (hne : ∀ x ∈ l ++ [z], addr x ≠ target) (hrest : first addr rest 0 = target) :
    walkList addr (fun x e (_ : Unit) => if e = target then .inr (result x) else .inl ()) fin (l ++ z :: rest) () =
      result z := by
  induction l with
  | nil => simp [walkList, hrest]
  | cons x l ih =>
    have hfirst : first addr (l ++ z :: rest) 0 ≠ target := by
      cases l with
      | nil => exact hne z (by simp)
      | cons y l => exact hne y (by simp)
    rw [List.cons_append, walkList, if_neg hfirst]
    exact ih fun y hy => hne y (List.mem_cons_of_mem _ hy)

end Walk

end Cs326
