import CompatSuva.Common.Heap

/-!
# Singly linked chains

Cells with a `next` link, the two loops C programs run over them, and the
predicate that says which list a chain stands for.

* `IsChain h p l`: from `p`, following `next`, the nodes are those of `l` and
  then the null pointer; a chain is finite by definition, and `IsChain.nodup`
  says that no node occurs twice;
* `seek`: `for (p = head; p && !stop(p); p = p->next);`, with the result
  `IsChain.seek`;
* `unlink`: the loop that takes the first node satisfying `stop` out of the
  chain, whether it is the head or has a predecessor, with the result
  `IsChain.unlink`;
* `IsChain.congr`, `IsChain.push`, `IsChain.snoc`: framing, and adding a node in
  front or behind.
-/

namespace CompatSuva.Common

/-- A cell with a link to the next one. -/
structure Node (β : Type) where
  data : β
  next : Addr
  deriving DecidableEq, Repr

variable {β : Type}

/-- The nodes from `p` on, following `next`, are those of `l`. -/
def IsChain (h : Heap (Node β)) : Addr → List (Addr × β) → Prop
  | p, [] => p = 0
  | p, x :: l => p = x.1 ∧ p ≠ 0 ∧ ∃ q, h.get p = some ⟨x.2, q⟩ ∧ IsChain h q l

/-- The address a chain with these nodes starts at. -/
def headAddr : List (Addr × β) → Addr
  | [] => 0
  | x :: _ => x.1

namespace IsChain

variable {h h' : Heap (Node β)} {p : Addr} {l : List (Addr × β)}

theorem head_eq (hc : IsChain h p l) : p = headAddr l := by
  cases l with
  | nil => exact hc
  | cons x l => exact hc.1

theorem eq_nil (hc : IsChain h 0 l) : l = [] := by
  cases l with
  | nil => rfl
  | cons x l => exact absurd rfl hc.2.1

theorem get_mem (hc : IsChain h p l) {x : Addr × β} (hx : x ∈ l) :
    x.1 ≠ 0 ∧ ∃ q, h.get x.1 = some ⟨x.2, q⟩ := by
  induction l generalizing p with
  | nil => simp at hx
  | cons y l ih =>
    obtain ⟨rfl, hne, q, hq, hl⟩ := hc
    rcases List.mem_cons.mp hx with rfl | hx
    · exact ⟨hne, q, hq⟩
    · exact ih hl hx

/-- The nodes of a chain are determined by where it starts. -/
theorem unique {l' : List (Addr × β)} (hc : IsChain h p l) (hc' : IsChain h p l') : l = l' := by
  induction l generalizing p l' with
  | nil =>
    have hp : p = 0 := hc
    subst hp
    exact (eq_nil hc').symm
  | cons x l ih =>
    obtain ⟨hpx, hne, q, hq, hl⟩ := hc
    cases l' with
    | nil => exact absurd hc' hne
    | cons y l' =>
      obtain ⟨hpy, -, q', hq', hl'⟩ := hc'
      have heq := Option.some.inj (hq.symm.trans hq')
      obtain ⟨hdata, rfl⟩ := Node.mk.inj heq
      rw [ih hl hl', Prod.ext (hpx.symm.trans hpy) hdata]

theorem append {l₁ l₂ : List (Addr × β)} (hc : IsChain h p (l₁ ++ l₂)) :
    IsChain h (headAddr l₂) l₂ := by
  induction l₁ generalizing p with
  | nil => exact (head_eq hc) ▸ hc
  | cons x l₁ ih =>
    obtain ⟨-, -, q, -, hl⟩ := hc
    exact ih hl

/-- No node occurs twice: the chain is acyclic. -/
theorem nodup (hc : IsChain h p l) : (l.map Prod.fst).Nodup := by
  induction l generalizing p with
  | nil => exact List.nodup_nil
  | cons x l ih =>
    obtain ⟨rfl, hne, q, hq, hl⟩ := id hc
    rw [List.map_cons, List.nodup_cons]
    refine ⟨fun hmem => ?_, ih hl⟩
    -- a second visit of the head would make the tail as long as the whole chain
    obtain ⟨y, hy, hyx⟩ := List.mem_map.mp hmem
    obtain ⟨l₁, l₂, rfl⟩ := List.append_of_mem hy
    have htail : IsChain h x.1 (y :: l₂) := by
      have := append (show IsChain h q (l₁ ++ y :: l₂) from hl)
      rwa [headAddr, hyx] at this
    have := congrArg List.length (unique hc htail)
    simp at this
    omega

/-- Framing: a chain only depends on its own nodes. -/
theorem congr (hc : IsChain h p l) (heq : ∀ x ∈ l, h'.get x.1 = h.get x.1) :
    IsChain h' p l := by
  induction l generalizing p with
  | nil => exact hc
  | cons x l ih =>
    obtain ⟨rfl, hne, q, hq, hl⟩ := hc
    exact ⟨rfl, hne, q, by rw [heq x (by simp), hq], ih hl fun y hy => heq y (by simp [hy])⟩

/-- Pushing a node in front. -/
theorem cons {a : Addr} {b : β} (hc : IsChain h p l) (ha : a ≠ 0) (hget : h.get a = some ⟨b, p⟩) :
    IsChain h a ((a, b) :: l) := ⟨rfl, ha, p, hget, hc⟩

/-- Pushing a node that is not in the chain. -/
theorem push {a : Addr} {b : β} (hc : IsChain h p l) (ha : a ≠ 0) (hnew : ∀ x ∈ l, x.1 ≠ a) :
    IsChain (h.set a ⟨b, p⟩) a ((a, b) :: l) :=
  cons (hc.congr fun x hx => Heap.get_set_ne _ _ (hnew x hx)) ha (Heap.get_set _ _ _)

/-- The last node of a chain has no successor. -/
theorem get_last {a : Addr} {b : β} (hc : IsChain h p (l ++ [(a, b)])) :
    a ≠ 0 ∧ h.get a = some ⟨b, 0⟩ := by
  obtain ⟨-, hne, q, hq, hq0⟩ := hc.append
  have hq0 : q = 0 := hq0
  exact ⟨hne, hq0 ▸ hq⟩

/-- Appending a node `a'` behind the last one, whose data may change to `c`. -/
theorem snoc {a a' : Addr} {b c d : β} (hc : IsChain h p (l ++ [(a, b)])) (ha' : a' ≠ 0)
    (hfresh : h.get a' = none) (hget : h'.get a = some ⟨c, a'⟩) (hget' : h'.get a' = some ⟨d, 0⟩)
    (hother : ∀ x, x ≠ a → x ≠ a' → h'.get x = h.get x) :
    IsChain h' p (l ++ [(a, c)] ++ [(a', d)]) := by
  have hnd := hc.nodup
  induction l generalizing p with
  | nil =>
    obtain ⟨rfl, hne, -⟩ := hc
    exact ⟨rfl, hne, a', hget, rfl, ha', 0, hget', rfl⟩
  | cons x l ih =>
    obtain ⟨rfl, hne, q, hq, hl⟩ := hc
    rw [List.cons_append, List.map_cons, List.nodup_cons] at hnd
    have hxa : x.1 ≠ a := by
      rintro rfl
      exact hnd.1 (by simp)
    have hxa' : x.1 ≠ a' := by
      rintro rfl
      simp [hfresh] at hq
    exact ⟨rfl, hne, q, by rw [hother x.1 hxa hxa', hq], ih hl hnd.2⟩

/-- Changing the data of the last node. -/
theorem setLast {a : Addr} {b c : β} (hc : IsChain h p (l ++ [(a, b)]))
    (hget : h'.get a = some ⟨c, 0⟩) (hother : ∀ x, x ≠ a → h'.get x = h.get x) :
    IsChain h' p (l ++ [(a, c)]) := by
  have hnd := hc.nodup
  induction l generalizing p with
  | nil =>
    obtain ⟨rfl, hne, -⟩ := hc
    exact ⟨rfl, hne, 0, hget, rfl⟩
  | cons x l ih =>
    obtain ⟨rfl, hne, q, hq, hl⟩ := hc
    rw [List.cons_append, List.map_cons, List.nodup_cons] at hnd
    have hxa : x.1 ≠ a := by
      intro heq
      exact hnd.1 (by simp [heq])
    exact ⟨rfl, hne, q, by rw [hother x.1 hxa, hq], ih hl hnd.2⟩

theorem length_le_size (hc : IsChain h p l) : l.length ≤ h.size := by
  have hlive : ∀ a ∈ l.map Prod.fst, (h.get a).isSome := by
    intro a ha
    obtain ⟨x, hx, rfl⟩ := List.mem_map.mp ha
    obtain ⟨-, q, hq⟩ := hc.get_mem hx
    simp [hq]
  simpa using h.length_le_size hc.nodup hlive

/-- The size of the heap is enough fuel for the nodes before the last one. -/
theorem length_lt {x : Addr × β} (hc : IsChain h p (l ++ [x])) : l.length < h.size + 1 := by
  have hle := hc.length_le_size
  rw [List.length_append, List.length_singleton] at hle
  omega

theorem last_not_mem {a : Addr} {b : β} (hc : IsChain h p (l ++ [(a, b)])) :
    a ∉ l.map Prod.fst := by
  have hnd := hc.nodup
  rw [List.map_append, List.nodup_append] at hnd
  intro hmem
  exact hnd.2.2 _ hmem _ (List.mem_singleton.mpr rfl) rfl

/-- The rest of a chain stays one when its first node is freed. -/
theorem tail_free {x : Addr × β} (hc : IsChain h p (x :: l)) :
    ∃ q, h.get x.1 = some ⟨x.2, q⟩ ∧ IsChain h q l ∧ IsChain (h.free x.1) q l ∧
      x.1 ∉ l.map Prod.fst := by
  have hnd := hc.nodup
  obtain ⟨rfl, -, q, hq, hl⟩ := hc
  rw [List.map_cons, List.nodup_cons] at hnd
  refine ⟨q, hq, hl, ?_, hnd.1⟩
  exact hl.congr fun y hy => Heap.get_free_ne _ fun hyx => hnd.1 (hyx ▸ List.mem_map_of_mem hy)

end IsChain

/-! ## Searching -/

/-- `for (p = head; p && !stop(p); p = p->next);` — the node it stops at, or
    `none` inside when it runs off the end. The outer `none` is a dangling link,
    or a chain longer than the fuel. -/
def seekLoop (stop : β → Bool) (h : Heap (Node β)) : ℕ → Addr → Option (Option (Addr × β))
  | 0, _ => none
  | fuel + 1, p =>
    if p = 0 then some none
    else
      match h.get p with
      | none => none
      | some c => if stop c.data then some (some (p, c.data)) else seekLoop stop h fuel c.next

/-- `seekLoop` with fuel for every chain of the heap. -/
def seek (stop : β → Bool) (h : Heap (Node β)) (p : Addr) : Option (Option (Addr × β)) :=
  seekLoop stop h (h.size + 1) p

theorem IsChain.seekLoop {h : Heap (Node β)} {p : Addr} {l : List (Addr × β)}
    (hc : IsChain h p l) (stop : β → Bool) {fuel : ℕ} (hf : l.length < fuel) :
    seekLoop stop h fuel p = some (l.find? fun x => stop x.2) := by
  induction l generalizing p fuel with
  | nil =>
    obtain ⟨f, rfl⟩ := Nat.exists_eq_add_one_of_ne_zero (Nat.ne_zero_of_lt hf)
    have hp : p = 0 := hc
    simp [Common.seekLoop, hp]
  | cons x l ih =>
    obtain ⟨f, rfl⟩ := Nat.exists_eq_add_one_of_ne_zero (Nat.ne_zero_of_lt hf)
    obtain ⟨rfl, hne, q, hq, hl⟩ := hc
    simp only [Common.seekLoop, if_neg hne, hq]
    cases hs : stop x.2 with
    | true => simp [hs]
    | false =>
      rw [List.find?_cons, hs, if_neg (by simp)]
      exact ih hl (by simp at hf; omega)

/-- The search loop returns the first node of the chain that satisfies `stop`. -/
theorem IsChain.seek {h : Heap (Node β)} {p : Addr} {l : List (Addr × β)} (hc : IsChain h p l)
    (stop : β → Bool) : seek stop h p = some (l.find? fun x => stop x.2) :=
  hc.seekLoop stop (by have := hc.length_le_size; omega)

/-! ## Unlinking -/

/-- The unlinking loop: walk with the predecessor in `tmp` (null at the head);
    at the first node that satisfies `stop`, make the head or the predecessor
    point past it. Returns the heap and the head of the chain. -/
def unlinkLoop (stop : β → Bool) (h : Heap (Node β)) (head : Addr) :
    ℕ → Addr → Addr → Option (Heap (Node β) × Addr)
  | 0, _, _ => none
  | fuel + 1, tmp, p =>
    if p = 0 then some (h, head)
    else
      match h.get p with
      | none => none
      | some c =>
        if stop c.data then
          if tmp = 0 then some (h, c.next)
          else
            match h.get tmp with
            | none => none
            | some t => some (h.set tmp ⟨t.data, c.next⟩, head)
        else unlinkLoop stop h head fuel p c.next

/-- `unlinkLoop` from the head, with fuel for every chain of the heap. -/
def unlink (stop : β → Bool) (h : Heap (Node β)) (head : Addr) : Option (Heap (Node β) × Addr) :=
  unlinkLoop stop h head (h.size + 1) 0 head

/-- What unlinking leaves alone: the data of every cell, and every cell outside
    the chain. -/
structure UnlinkFrame (h h' : Heap (Node β)) (l : List (Addr × β)) : Prop where
  data : ∀ a, (h'.get a).map Node.data = (h.get a).map Node.data
  outside : ∀ a, a ∉ l.map Prod.fst → h'.get a = h.get a

theorem UnlinkFrame.refl (h : Heap (Node β)) (l : List (Addr × β)) : UnlinkFrame h h l :=
  ⟨fun _ => rfl, fun _ _ => rfl⟩

/-- The loop at `p`, with `pre` the nodes already passed and `t` the last of
    them: the chain from the head loses its first node satisfying `stop`. -/
theorem IsChain.unlinkLoop {h : Heap (Node β)} {head p : Addr} {pre l : List (Addr × β)}
    {t : Addr × β} (hc : IsChain h head (pre ++ t :: l)) (hp : IsChain h p l)
    (ht : h.get t.1 = some ⟨t.2, p⟩) (stop : β → Bool) {fuel : ℕ} (hf : l.length < fuel) :
    ∃ h', unlinkLoop stop h head fuel t.1 p = some (h', head) ∧
      IsChain h' head (pre ++ t :: l.eraseP fun x => stop x.2) ∧
      UnlinkFrame h h' (pre ++ t :: l) := by
  induction l generalizing p pre t fuel with
  | nil =>
    obtain ⟨f, rfl⟩ := Nat.exists_eq_add_one_of_ne_zero (Nat.ne_zero_of_lt hf)
    have hp0 : p = 0 := hp
    exact ⟨h, by simp [Common.unlinkLoop, hp0], hc, UnlinkFrame.refl _ _⟩
  | cons x l ih =>
    obtain ⟨f, rfl⟩ := Nat.exists_eq_add_one_of_ne_zero (Nat.ne_zero_of_lt hf)
    obtain ⟨rfl, hne, q, hq, hl⟩ := id hp
    cases hs : stop x.2 with
    | true =>
      -- the predecessor now points past `x`
      have htne : t.1 ≠ 0 := (hc.get_mem (x := t) (by simp)).1
      refine ⟨h.set t.1 ⟨t.2, q⟩, by simp [Common.unlinkLoop, hne, hq, hs, htne, ht], ?_, ?_⟩
      · rw [List.eraseP_cons_of_pos (by simpa using hs)]
        have hnd := hc.nodup
        have hrest : IsChain (h.set t.1 ⟨t.2, q⟩) q l := by
          refine hl.congr fun y hy => Heap.get_set_ne _ _ ?_
          rintro heq
          rw [List.map_append, List.map_cons, List.map_cons] at hnd
          have := (List.nodup_append.mp hnd).2.1
          exact (List.nodup_cons.mp this).1 (by simp [← heq]; exact Or.inr ⟨_, hy⟩)
        have htl : IsChain (h.set t.1 ⟨t.2, q⟩) t.1 (t :: l) :=
          hrest.cons htne (Heap.get_set _ _ _)
        -- the nodes before `t` still lead to `t`
        clear hrest ih hf hs
        induction pre generalizing head with
        | nil =>
          have : head = t.1 := hc.head_eq
          exact this ▸ htl
        | cons y pre ihp =>
          obtain ⟨rfl, hyne, q', hq', hpre⟩ := hc
          rw [List.cons_append, List.map_cons, List.nodup_cons] at hnd
          refine ⟨rfl, hyne, q', ?_, ihp hpre hnd.2⟩
          rw [Heap.get_set_ne, hq']
          rintro heq
          exact hnd.1 (by simp [heq])
      · refine ⟨fun a => ?_, fun a ha => Heap.get_set_ne _ _ ?_⟩
        · by_cases hat : a = t.1
          · subst hat; simp [ht]
          · rw [Heap.get_set_ne _ _ hat]
        · rintro rfl
          exact ha (by simp)
    | false =>
      obtain ⟨h', hrun, hchain, hframe⟩ := ih
        (show IsChain h head ((pre ++ [t]) ++ x :: l) by simpa using hc) hl hq
        (show l.length < f by simp at hf; omega)
      refine ⟨h', ?_, ?_, ?_⟩
      · simpa [Common.unlinkLoop, hne, hq, hs] using hrun
      · rw [List.eraseP_cons_of_neg (by simp [hs])]
        simpa using hchain
      · simpa using hframe

/-- The unlinking loop takes the first node satisfying `stop` out of the chain. -/
theorem IsChain.unlink {h : Heap (Node β)} {p : Addr} {l : List (Addr × β)} (hc : IsChain h p l)
    (stop : β → Bool) :
    ∃ h' p', unlink stop h p = some (h', p') ∧ IsChain h' p' (l.eraseP fun x => stop x.2) ∧
      UnlinkFrame h h' l := by
  have hsize := hc.length_le_size
  cases l with
  | nil =>
    have hp : p = 0 := hc
    exact ⟨h, p, by simp [Common.unlink, Common.unlinkLoop, hp], hc, UnlinkFrame.refl _ _⟩
  | cons x l =>
    obtain ⟨rfl, hne, q, hq, hl⟩ := id hc
    cases hs : stop x.2 with
    | true =>
      refine ⟨h, q, by simp [Common.unlink, Common.unlinkLoop, hne, hq, hs], ?_,
        UnlinkFrame.refl _ _⟩
      rw [List.eraseP_cons_of_pos (by simpa using hs)]
      exact hl
    | false =>
      obtain ⟨h', hrun, hchain, hframe⟩ := IsChain.unlinkLoop
        (show IsChain h x.1 ([] ++ x :: l) from hc) hl hq stop
        (show l.length < h.size by simpa using hsize)
      refine ⟨h', x.1, ?_, ?_, hframe⟩
      · simpa [Common.unlink, Common.unlinkLoop, hne, hq, hs] using hrun
      · rw [List.eraseP_cons_of_neg (by simp [hs])]
        exact hchain

end CompatSuva.Common
