import CompatSuva.Common.Chain

/-!
# Hash tables with chained buckets

A table is a heap of cells and an array of `n` chain heads; an entry with key
`k` belongs in bucket `hash k`. The operations are the ones C programs write out
by hand: search the bucket, push in front of it, unlink from it.

`WF t` is the table invariant: every bucket is a finite chain, every entry sits
in the bucket of its key, and no key occurs twice. `HasEntry t x` says that node
`x.1` with data `x.2` is chained somewhere. Each operation has one lemma that
gives `WF` of the result and its entries:

* `WF.find`: the search finds the entry with a key, if there is one;
* `WF.push`, `WF.setData`, `WF.remove`, `WF.remove_free`: what they do to the entries;
* `Rep.sweep`: a walk over all entries whose body may remove the entry it is at.
-/

namespace CompatSuva.Common

/-- Cells and the heads of `n` chains. -/
structure HashTable (n : ℕ) (β : Type) where
  cells : Heap (Node β)
  head : Fin n → Addr

namespace HashTable

variable {n : ℕ} {β κ : Type}

/-- The table after `memset(…, 0, …)`. -/
def empty (n : ℕ) (β : Type) : HashTable n β := ⟨Heap.empty, fun _ => 0⟩

/-- Node `x.1`, holding `x.2`, is chained in some bucket. -/
def HasEntry (t : HashTable n β) (x : Addr × β) : Prop :=
  ∃ i l, IsChain t.cells (t.head i) l ∧ x ∈ l

/-! ## The table invariant -/

variable (key : β → κ) (hash : κ → Fin n)

/-- The buckets of `t` are the lists `L`. -/
structure Rep (t : HashTable n β) (L : Fin n → List (Addr × β)) : Prop where
  chain : ∀ i, IsChain t.cells (t.head i) (L i)
  bucket : ∀ i, ∀ x ∈ L i, hash (key x.2) = i
  keys : ∀ i, ((L i).map fun x => key x.2).Nodup

/-- The table invariant. -/
def WF (t : HashTable n β) : Prop := ∃ L, Rep key hash t L

variable {key hash} {t : HashTable n β} {L : Fin n → List (Addr × β)}

theorem Rep.hasEntry_iff (h : Rep key hash t L) {x : Addr × β} :
    t.HasEntry x ↔ ∃ i, x ∈ L i := by
  constructor
  · rintro ⟨i, l, hc, hx⟩
    exact ⟨i, hc.unique (h.chain i) ▸ hx⟩
  · rintro ⟨i, hx⟩
    exact ⟨i, L i, h.chain i, hx⟩

/-- Entries with one key are one entry. -/
theorem Rep.eq_of_key (h : Rep key hash t L) {x y : Addr × β} {i j : Fin n} (hx : x ∈ L i)
    (hy : y ∈ L j) (hk : key x.2 = key y.2) : x = y := by
  have hij : i = j := by rw [← h.bucket i x hx, ← h.bucket j y hy, hk]
  subst hij
  exact List.inj_on_of_nodup_map (h.keys i) hx hy hk

theorem Rep.eq_of_addr (h : Rep key hash t L) {x y : Addr × β} {i j : Fin n} (hx : x ∈ L i)
    (hy : y ∈ L j) (ha : x.1 = y.1) : x = y := by
  obtain ⟨-, q, hq⟩ := (h.chain i).get_mem hx
  obtain ⟨-, q', hq'⟩ := (h.chain j).get_mem hy
  rw [ha, hq'] at hq
  exact Prod.ext ha (Node.mk.inj (Option.some.inj hq)).1.symm

theorem WF.eq_of_key (h : WF key hash t) {x y : Addr × β} (hx : t.HasEntry x) (hy : t.HasEntry y)
    (hk : key x.2 = key y.2) : x = y := by
  obtain ⟨L, hL⟩ := h
  obtain ⟨i, hx⟩ := hL.hasEntry_iff.mp hx
  obtain ⟨j, hy⟩ := hL.hasEntry_iff.mp hy
  exact hL.eq_of_key hx hy hk

theorem WF.eq_of_addr (h : WF key hash t) {x y : Addr × β} (hx : t.HasEntry x) (hy : t.HasEntry y)
    (ha : x.1 = y.1) : x = y := by
  obtain ⟨L, hL⟩ := h
  obtain ⟨i, hx⟩ := hL.hasEntry_iff.mp hx
  obtain ⟨j, hy⟩ := hL.hasEntry_iff.mp hy
  exact hL.eq_of_addr hx hy ha

theorem HasEntry.get {x : Addr × β} (h : t.HasEntry x) :
    x.1 ≠ 0 ∧ ∃ q, t.cells.get x.1 = some ⟨x.2, q⟩ := by
  obtain ⟨i, l, hc, hx⟩ := h
  exact hc.get_mem hx

/-- A bucket of one node. -/
theorem hasEntry_of_head {i : Fin n} {a : Addr} {b : β} (hhead : t.head i = a) (ha : a ≠ 0)
    (hcell : t.cells.get a = some ⟨b, 0⟩) : t.HasEntry (a, b) := by
  subst hhead
  exact ⟨i, [(t.head i, b)], ⟨rfl, ha, 0, hcell, rfl⟩, List.mem_singleton.mpr rfl⟩

/-- Entries are live, so a dead address is not among them. -/
theorem HasEntry.ne_of_get_eq_none {x : Addr × β} (h : t.HasEntry x) {a : Addr}
    (ha : t.cells.get a = none) : x.1 ≠ a := by
  obtain ⟨-, q, hq⟩ := h.get
  rintro rfl
  simp [ha] at hq

/-- Every chain of a well-formed table is finite and acyclic. -/
theorem WF.acyclic (h : WF key hash t) (i : Fin n) :
    ∃ l, IsChain t.cells (t.head i) l ∧ (l.map Prod.fst).Nodup := by
  obtain ⟨L, hL⟩ := h
  exact ⟨L i, hL.chain i, (hL.chain i).nodup⟩

theorem WF.bucket (h : WF key hash t) {i : Fin n} {l : List (Addr × β)}
    (hc : IsChain t.cells (t.head i) l) {x : Addr × β} (hx : x ∈ l) : hash (key x.2) = i := by
  obtain ⟨L, hL⟩ := h
  exact hL.bucket i x (hc.unique (hL.chain i) ▸ hx)

theorem rep_empty : Rep key hash (empty n β) fun _ => [] :=
  ⟨fun _ => rfl, fun _ _ hx => by simp at hx, fun _ => List.nodup_nil⟩

theorem wf_empty : WF key hash (empty n β) := ⟨_, rep_empty⟩

theorem hasEntry_empty (x : Addr × β) : ¬ (empty n β).HasEntry x := by
  rintro ⟨i, l, hc, hx⟩
  rw [hc.eq_nil] at hx
  simp at hx

/-! ## Operations on nodes -/

/-- Release the node `a`. -/
def free (a : Addr) (t : HashTable n β) : HashTable n β := ⟨t.cells.free a, t.head⟩

/-- Releasing a node that is not chained. -/
theorem Rep.free (h : Rep key hash t L) {a : Addr} (ha : ∀ i, ∀ x ∈ L i, x.1 ≠ a) :
    Rep key hash (t.free a) L :=
  ⟨fun i => (h.chain i).congr fun x hx => Heap.get_free_ne _ (ha i x hx), h.bucket, h.keys⟩

variable (key hash) in
/-- Push the node `a` with data `b` in front of its bucket. -/
def push (a : Addr) (b : β) (t : HashTable n β) : HashTable n β where
  cells := t.cells.set a ⟨b, t.head (hash (key b))⟩
  head := Function.update t.head (hash (key b)) a

theorem WF.push (h : WF key hash t) {a : Addr} {b : β} (ha : a ≠ 0)
    (hfresh : ∀ x, t.HasEntry x → x.1 ≠ a) (hnew : ∀ x, t.HasEntry x → key x.2 ≠ key b) :
    WF key hash (push key hash a b t) ∧
      ∀ x, (push key hash a b t).HasEntry x ↔ x = (a, b) ∨ t.HasEntry x := by
  obtain ⟨L, hL⟩ := h
  have hfresh' : ∀ i, ∀ x ∈ L i, x.1 ≠ a := fun i x hx => hfresh x (hL.hasEntry_iff.mpr ⟨i, hx⟩)
  have hrep : Rep key hash (HashTable.push key hash a b t)
      (Function.update L (hash (key b)) ((a, b) :: L (hash (key b)))) := by
    refine ⟨fun i => ?_, fun i x hx => ?_, fun i => ?_⟩
    · by_cases hi : i = hash (key b)
      · subst hi
        simpa [HashTable.push] using (hL.chain (hash (key b))).push ha (hfresh' _)
      · simp only [HashTable.push, Function.update_of_ne hi]
        exact (hL.chain i).congr fun x hx => Heap.get_set_ne _ _ (hfresh' i x hx)
    · by_cases hi : i = hash (key b)
      · subst hi
        rw [Function.update_self] at hx
        rcases List.mem_cons.mp hx with rfl | hx
        · rfl
        · exact hL.bucket _ x hx
      · rw [Function.update_of_ne hi] at hx
        exact hL.bucket i x hx
    · by_cases hi : i = hash (key b)
      · subst hi
        rw [Function.update_self, List.map_cons, List.nodup_cons]
        refine ⟨fun hmem => ?_, hL.keys _⟩
        obtain ⟨x, hx, hxk⟩ := List.mem_map.mp hmem
        exact hnew x (hL.hasEntry_iff.mpr ⟨_, hx⟩) hxk
      · rw [Function.update_of_ne hi]
        exact hL.keys i
  refine ⟨⟨_, hrep⟩, fun x => ?_⟩
  rw [hrep.hasEntry_iff, hL.hasEntry_iff]
  constructor
  · rintro ⟨i, hx⟩
    by_cases hi : i = hash (key b)
    · subst hi
      rw [Function.update_self] at hx
      exact (List.mem_cons.mp hx).imp_right fun hx => ⟨_, hx⟩
    · rw [Function.update_of_ne hi] at hx
      exact Or.inr ⟨i, hx⟩
  · rintro (rfl | ⟨i, hx⟩)
    · exact ⟨hash (key b), by simp⟩
    · refine ⟨i, ?_⟩
      by_cases hi : i = hash (key b)
      · subst hi; simp [hx]
      · rwa [Function.update_of_ne hi]

/-- Change the data of the node `a` in place. -/
def setData (a : Addr) (f : β → β) (t : HashTable n β) : HashTable n β :=
  match t.cells.get a with
  | none => t
  | some c => ⟨t.cells.set a ⟨f c.data, c.next⟩, t.head⟩

/-- A chain after the data of one node has changed. -/
theorem isChain_setData {p : Addr} {l : List (Addr × β)} (hc : IsChain t.cells p l) (a : Addr)
    (f : β → β) :
    IsChain (t.setData a f).cells p (l.map fun x => if x.1 = a then (x.1, f x.2) else x) := by
  unfold HashTable.setData
  cases hget : t.cells.get a with
  | none =>
    have hid : (l.map fun x => if x.1 = a then (x.1, f x.2) else x) = l := by
      conv_rhs => rw [← List.map_id l]
      refine List.map_congr_left fun x hx => ?_
      obtain ⟨-, q, hq⟩ := hc.get_mem hx
      rw [if_neg (by rintro rfl; simp [hget] at hq), id]
    rw [hid]
    exact hc
  | some c =>
    simp only
    induction l generalizing p with
    | nil => exact hc
    | cons x l ih =>
      obtain ⟨rfl, hne, q, hq, hl⟩ := hc
      by_cases hxa : x.1 = a
      · subst hxa
        have hcq : c = ⟨x.2, q⟩ := Option.some.inj (hget.symm.trans hq)
        subst hcq
        refine ⟨by simp, hne, q, ?_, ih hl⟩
        simp
      · refine ⟨by simp [hxa], hne, q, ?_, ih hl⟩
        rw [Heap.get_set_ne _ _ hxa, hq]
        simp [hxa]

/-- Changing the data of a node, but not its key. -/
theorem WF.setData (h : WF key hash t) (a : Addr) {f : β → β}
    (hf : ∀ x, t.HasEntry x → x.1 = a → key (f x.2) = key x.2) :
    WF key hash (t.setData a f) ∧ ∀ x, (t.setData a f).HasEntry x ↔
      ∃ y, t.HasEntry y ∧ x = if y.1 = a then (y.1, f y.2) else y := by
  obtain ⟨L, hL⟩ := h
  have hhead : (t.setData a f).head = t.head := by
    unfold HashTable.setData
    cases t.cells.get a <;> rfl
  have hkey : ∀ i, ∀ x ∈ L i, key (if x.1 = a then (x.1, f x.2) else x).2 = key x.2 := by
    intro i x hx
    split_ifs with hxa
    · exact hf x (hL.hasEntry_iff.mpr ⟨i, hx⟩) hxa
    · rfl
  have hrep : Rep key hash (t.setData a f)
      fun i => (L i).map fun x => if x.1 = a then (x.1, f x.2) else x := by
    refine ⟨fun i => ?_, fun i x hx => ?_, fun i => ?_⟩
    · rw [hhead]
      exact isChain_setData (hL.chain i) a f
    · obtain ⟨y, hy, rfl⟩ := List.mem_map.mp hx
      rw [hkey i y hy, hL.bucket i y hy]
    · rw [List.map_map]
      have : (L i).map ((fun x => key x.2) ∘ fun x => if x.1 = a then (x.1, f x.2) else x) =
          (L i).map fun x => key x.2 := List.map_congr_left fun x hx => hkey i x hx
      rw [this]
      exact hL.keys i
  refine ⟨⟨_, hrep⟩, fun x => ?_⟩
  rw [hrep.hasEntry_iff]
  constructor
  · rintro ⟨i, hx⟩
    obtain ⟨y, hy, rfl⟩ := List.mem_map.mp hx
    exact ⟨y, hL.hasEntry_iff.mpr ⟨i, hy⟩, rfl⟩
  · rintro ⟨y, hy, rfl⟩
    obtain ⟨i, hi⟩ := hL.hasEntry_iff.mp hy
    exact ⟨i, List.mem_map.mpr ⟨y, hi, rfl⟩⟩

/-! ## Operations that compare keys -/

section Operations

variable (key hash) [DecidableEq κ]

/-- Search the bucket of `k`. -/
def find (k : κ) (t : HashTable n β) : Option (Option (Addr × β)) :=
  seek (fun b => key b = k) t.cells (t.head (hash k))

/-- Unlink the node with key `k` from its bucket; the node itself stays live. -/
def remove (k : κ) (t : HashTable n β) : Option (HashTable n β) :=
  match unlink (fun b => key b = k) t.cells (t.head (hash k)) with
  | none => none
  | some (cells, p) => some ⟨cells, Function.update t.head (hash k) p⟩

end Operations

variable [DecidableEq κ]

theorem Rep.find (h : Rep key hash t L) (k : κ) :
    find key hash k t = some ((L (hash k)).find? fun x => key x.2 = k) :=
  (h.chain (hash k)).seek _

/-- The search succeeds; it finds the entry with the key, if there is one. -/
theorem WF.find (h : WF key hash t) (k : κ) :
    (∃ x, find key hash k t = some (some x) ∧ t.HasEntry x ∧ key x.2 = k) ∨
      (find key hash k t = some none ∧ ∀ x, t.HasEntry x → key x.2 ≠ k) := by
  obtain ⟨L, hL⟩ := h
  rw [hL.find]
  cases hf : (L (hash k)).find? fun x => key x.2 = k with
  | some x =>
    have hk : key x.2 = k := by simpa using List.find?_some hf
    exact Or.inl ⟨x, rfl, hL.hasEntry_iff.mpr ⟨_, List.mem_of_find?_eq_some hf⟩, hk⟩
  | none =>
    refine Or.inr ⟨rfl, fun x hx hk => ?_⟩
    obtain ⟨i, hi⟩ := hL.hasEntry_iff.mp hx
    rw [← hL.bucket i x hi, hk] at hi
    simpa [hk] using List.find?_eq_none.mp hf x hi

/-- With distinct keys, erasing the first entry with a key erases the key. -/
theorem eraseP_eq_filter {l : List (Addr × β)} (hnd : (l.map fun x => key x.2).Nodup) (k : κ) :
    (l.eraseP fun x => key x.2 = k) = l.filter fun x => key x.2 ≠ k := by
  induction l with
  | nil => rfl
  | cons y l ih =>
    rw [List.map_cons, List.nodup_cons] at hnd
    by_cases hy : key y.2 = k
    · rw [List.eraseP_cons_of_pos (by simpa using hy), List.filter_cons_of_neg (by simpa using hy),
        List.filter_eq_self.mpr]
      intro x hx
      have : key x.2 ≠ k := fun hxk => hnd.1 (List.mem_map.mpr ⟨x, hx, hxk.trans hy.symm⟩)
      simpa using this
    · rw [List.eraseP_cons_of_neg (by simpa using hy), List.filter_cons_of_pos (by simpa using hy),
        ih hnd.2]

/-- Removing a key takes it out of every bucket. -/
theorem Rep.remove (h : Rep key hash t L) (k : κ) :
    ∃ t', HashTable.remove key hash k t = some t' ∧
      Rep key hash t' (fun i => (L i).filter fun x => key x.2 ≠ k) ∧
      ∀ a, (t'.cells.get a).map Node.data = (t.cells.get a).map Node.data := by
  obtain ⟨cells, p, hrun, hchain, hframe⟩ := (h.chain (hash k)).unlink (fun b => key b = k)
  refine ⟨⟨cells, Function.update t.head (hash k) p⟩, by simp [HashTable.remove, hrun],
    ⟨fun i => ?_, fun i x hx => h.bucket i x (List.mem_of_mem_filter hx),
      fun i => (h.keys i).sublist (List.filter_sublist.map _)⟩, hframe.data⟩
  by_cases hi : i = hash k
  · subst hi
    rw [← eraseP_eq_filter (h.keys _)]
    simpa using hchain
  · -- the other buckets hold neither the key nor a node of this bucket
    have hself : ((L i).filter fun x => key x.2 ≠ k) = L i := by
      refine List.filter_eq_self.mpr fun x hx => ?_
      have : key x.2 ≠ k := fun hxk => hi (by rw [← h.bucket i x hx, hxk])
      simpa using this
    rw [hself]
    simp only [Function.update_of_ne hi]
    refine (h.chain i).congr fun x hx => hframe.outside _ fun hmem => hi ?_
    obtain ⟨y, hy, hyx⟩ := List.mem_map.mp hmem
    rw [← h.bucket i x hx, ← h.eq_of_addr hy hx hyx, h.bucket _ y hy]

theorem WF.remove (h : WF key hash t) (k : κ) :
    ∃ t', HashTable.remove key hash k t = some t' ∧ WF key hash t' ∧
      (∀ x, t'.HasEntry x ↔ t.HasEntry x ∧ key x.2 ≠ k) ∧
      ∀ a, (t'.cells.get a).map Node.data = (t.cells.get a).map Node.data := by
  obtain ⟨L, hL⟩ := h
  obtain ⟨t', hrun, hrep, hdata⟩ := hL.remove k
  refine ⟨t', hrun, ⟨_, hrep⟩, fun x => ?_, hdata⟩
  rw [hrep.hasEntry_iff, hL.hasEntry_iff]
  simp

/-- Taking an entry out and releasing its node, which is what `free` does to an
    unlinked node. The buckets are given too, for walks that do this. -/
theorem WF.remove_free (h : WF key hash t) {x : Addr × β} (hx : t.HasEntry x) :
    ∃ t', HashTable.remove key hash (key x.2) t = some t' ∧ WF key hash (t'.free x.1) ∧
      (∀ y, (t'.free x.1).HasEntry y ↔ t.HasEntry y ∧ key y.2 ≠ key x.2) ∧
      ∀ L, Rep key hash t L →
        Rep key hash (t'.free x.1) fun i => (L i).filter fun y => key y.2 ≠ key x.2 := by
  have heq := fun y hy => h.eq_of_addr (x := y) (y := x) hy hx
  obtain ⟨L, hL⟩ := h
  obtain ⟨t', hrun, hrep, -⟩ := hL.remove (key x.2)
  -- the node is not chained any more
  have hfree : Rep key hash (t'.free x.1) fun i => (L i).filter fun y => key y.2 ≠ key x.2 := by
    refine hrep.free fun i y hy hyx => ?_
    obtain ⟨hy, hyk⟩ := List.mem_filter.mp hy
    simp [heq y (hL.hasEntry_iff.mpr ⟨i, hy⟩) hyx] at hyk
  refine ⟨t', hrun, ⟨_, hfree⟩, fun y => ?_, fun L' hL' => ?_⟩
  · rw [hfree.hasEntry_iff, hL.hasEntry_iff]
    simp
  · have : L' = L := funext fun i => (hL'.chain i).unique (hL.chain i)
    exact this ▸ hfree

/-! ## Walking over all entries -/

section Sweep

variable {σ : Type}

/-- `for (p = head; p; ) { d = p->data; p = p->next; body(d); }` — the link is
    read before the body runs, so the body may release the node. -/
def sweepLoop (tbl : σ → HashTable n β) (body : σ → β → Option σ) : ℕ → σ → Addr → Option σ
  | 0, _, _ => none
  | fuel + 1, s, p =>
    if p = 0 then some s
    else
      match (tbl s).cells.get p with
      | none => none
      | some c => (body s c.data).bind fun s => sweepLoop tbl body fuel s c.next

/-- The walk over every bucket in turn. -/
def sweep (tbl : σ → HashTable n β) (body : σ → β → Option σ) (s : σ) : Option σ :=
  (List.finRange n).foldlM
    (fun s i => sweepLoop tbl body ((tbl s).cells.size + 1) s ((tbl s).head i)) s

omit [DecidableEq κ] in
theorem sweepLoop_const (body : σ → β → Option σ) {l : List (Addr × β)} {p : Addr}
    (hc : IsChain t.cells p l) {fuel : ℕ} (hfuel : l.length < fuel) (s : σ) :
    sweepLoop (fun _ => t) body fuel s p = l.foldlM (fun s x => body s x.2) s := by
  induction l generalizing p fuel s with
  | nil =>
    obtain ⟨f, rfl⟩ := Nat.exists_eq_add_one_of_ne_zero (Nat.ne_zero_of_lt hfuel)
    have hp : p = 0 := hc
    rw [sweepLoop, if_pos hp]
    rfl
  | cons x l ih =>
    rw [List.length_cons] at hfuel
    obtain ⟨f, rfl⟩ := Nat.exists_eq_add_one_of_ne_zero (Nat.ne_zero_of_lt hfuel)
    obtain ⟨rfl, hne, q, hq, hl⟩ := hc
    simp only [sweepLoop, if_neg hne, hq, List.foldlM_cons]
    apply congrArg
    funext s
    exact ih hl (by omega) s

omit [DecidableEq κ] in
/-- A walk over a table that the body leaves alone is a fold over its entries. -/
theorem Rep.sweep_const (h : Rep key hash t L) (body : σ → β → Option σ) (s : σ) :
    sweep (fun _ => t) body s =
      ((List.finRange n).flatMap L).foldlM (fun s x => body s x.2) s := by
  rw [sweep]
  generalize List.finRange n = is
  induction is generalizing s with
  | nil => rfl
  | cons i is ih =>
    rw [List.foldlM_cons, List.flatMap_cons, List.foldlM_append,
      sweepLoop_const body (h.chain i) (Nat.lt_succ_of_le (h.chain i).length_le_size)]
    exact congrArg _ (funext ih)

/-- What the body of a walk does to the table at entry `x`: it removes the entry
    if it is one to drop, and leaves the chains alone otherwise. -/
def afterBody (key : β → κ) (drop : β → Bool) (L : Fin n → List (Addr × β)) (x : Addr × β) :
    Fin n → List (Addr × β) :=
  if drop x.2 then fun j => (L j).filter fun z => key z.2 ≠ key x.2 else L

variable {tbl : σ → HashTable n β} {body : σ → β → Option σ} {Inv : σ → Prop} {drop : β → Bool}

omit [DecidableEq κ] in
/-- One round: the body runs on the node, and the walk goes on behind it. -/
theorem sweepLoop_cons {s s' : σ} {x : Addr × β} {l : List (Addr × β)}
    (hc : IsChain (tbl s).cells x.1 (x :: l)) (hrun : body s x.2 = some s') (fuel : ℕ) :
    sweepLoop tbl body (fuel + 1) s (headAddr (x :: l)) =
      sweepLoop tbl body fuel s' (headAddr l) := by
  obtain ⟨-, hne, q, hq, hl⟩ := hc
  rw [headAddr, ← hl.head_eq]
  simp only [sweepLoop, if_neg hne, hq, hrun, Option.bind_some]

/-- Only `x` has its key, so exactly `x` is gone. -/
theorem Rep.afterBody_drop (h : Rep key hash t L) {i : Fin n} {pre l : List (Addr × β)}
    {x : Addr × β} (hi : L i = pre ++ x :: l) (hd : drop x.2 = true) :
    afterBody key drop L x = Function.update L i (pre ++ l) := by
  have hx : x ∈ L i := by simp [hi]
  rw [afterBody, if_pos hd]
  funext j
  by_cases hj : j = i
  · subst hj
    have hnd := (h.chain j).nodup
    rw [hi, List.map_append, List.map_cons, List.nodup_middle, List.nodup_cons] at hnd
    have hkeep : (pre ++ l).filter (fun z => key z.2 ≠ key x.2) = pre ++ l := by
      refine List.filter_eq_self.mpr fun y hy => decide_eq_true fun hk => ?_
      have hyL : y ∈ L j := by
        rw [hi]
        exact List.mem_append.mpr ((List.mem_append.mp hy).imp_right (List.mem_cons_of_mem x))
      obtain rfl := h.eq_of_key hyL hx hk
      apply hnd.1
      rw [← List.map_append]
      exact List.mem_map_of_mem hy
    rw [Function.update_self, hi, List.filter_append, List.filter_cons_of_neg (by simp),
      ← List.filter_append, hkeep]
  · rw [Function.update_of_ne hj]
    refine List.filter_eq_self.mpr fun y hy => decide_eq_true fun hk => hj ?_
    rw [← h.bucket j y hy, hk, h.bucket i x hx]

/-- The walk along one bucket, `pre` being the nodes passed and kept. -/
theorem Rep.sweepLoop
    (hbody : ∀ s L i x, Inv s → Rep key hash (tbl s) L → x ∈ L i →
      ∃ s', body s x.2 = some s' ∧ Inv s' ∧ Rep key hash (tbl s') (afterBody key drop L x))
    {s : σ} {L : Fin n → List (Addr × β)} (hs : Inv s) (hL : Rep key hash (tbl s) L) {i : Fin n}
    {pre l : List (Addr × β)} (hi : L i = pre ++ l) {fuel : ℕ} (hf : l.length < fuel) :
    ∃ s', sweepLoop tbl body fuel s (headAddr l) = some s' ∧ Inv s' ∧
      Rep key hash (tbl s') (Function.update L i (pre ++ l.filter fun x => ! drop x.2)) := by
  induction l generalizing s L pre fuel with
  | nil =>
    obtain ⟨f, rfl⟩ := Nat.exists_eq_add_one_of_ne_zero (Nat.ne_zero_of_lt hf)
    have hid : Function.update L i (pre ++ [].filter fun x => ! drop x.2) = L := by
      rw [List.filter_nil, ← hi, Function.update_eq_self]
    exact ⟨s, by simp [HashTable.sweepLoop, headAddr], hs, hid.symm ▸ hL⟩
  | cons x l ih =>
    obtain ⟨f, rfl⟩ := Nat.exists_eq_add_one_of_ne_zero (Nat.ne_zero_of_lt hf)
    have hx : x ∈ L i := by simp [hi]
    have hchain : IsChain (tbl s).cells x.1 (x :: l) := by
      have := hL.chain i
      rw [hi] at this
      exact this.append
    obtain ⟨s', hrun, hs', hL'⟩ := hbody s L i x hs hL hx
    rw [sweepLoop_cons hchain hrun]
    cases hd : drop x.2 with
    | false =>
      have hkeep : afterBody key drop L x = L := by rw [afterBody, if_neg (by simp [hd])]
      rw [hkeep] at hL'
      have := ih hs' hL' (show L i = (pre ++ [x]) ++ l by simpa using hi)
        (by simp at hf; omega)
      simpa [hd] using this
    | true =>
      rw [hL.afterBody_drop hi hd] at hL'
      have := ih hs' hL' (show Function.update L i (pre ++ l) i = pre ++ l by simp)
        (by simp at hf; omega)
      simpa [hd] using this

variable (tbl body Inv drop) in
/-- The rule for a walk whose body may remove the entry it is at: it visits every
    entry and leaves those that are not to be dropped. -/
theorem Rep.sweep
    (hbody : ∀ s L i x, Inv s → Rep key hash (tbl s) L → x ∈ L i →
      ∃ s', body s x.2 = some s' ∧ Inv s' ∧ Rep key hash (tbl s') (afterBody key drop L x))
    {s : σ} {L : Fin n → List (Addr × β)} (hs : Inv s) (hL : Rep key hash (tbl s) L) :
    ∃ s', sweep tbl body s = some s' ∧ Inv s' ∧
      Rep key hash (tbl s') fun i => (L i).filter fun x => ! drop x.2 := by
  have hbuckets : ∀ is : List (Fin n), is.Nodup → ∀ s L, Inv s → Rep key hash (tbl s) L →
      ∃ s', is.foldlM (fun s i => HashTable.sweepLoop tbl body ((tbl s).cells.size + 1) s
          ((tbl s).head i)) s = some s' ∧ Inv s' ∧
        Rep key hash (tbl s') fun i => if i ∈ is then (L i).filter fun x => ! drop x.2
          else L i := by
    intro is
    induction is with
    | nil => intro _ s L hs hL; exact ⟨s, rfl, hs, by simpa using hL⟩
    | cons i is ih =>
      intro hnd s L hs hL
      rw [List.nodup_cons] at hnd
      obtain ⟨s₁, hrun, hs₁, hL₁⟩ := Rep.sweepLoop hbody hs hL (List.nil_append (L i)).symm
        (Nat.lt_succ_of_le (hL.chain i).length_le_size)
      obtain ⟨s₂, hrun₂, hs₂, hL₂⟩ := ih hnd.2 s₁ _ hs₁ hL₁
      refine ⟨s₂, ?_, hs₂, ?_⟩
      · rw [List.foldlM_cons, (hL.chain i).head_eq, hrun]
        exact hrun₂
      · convert hL₂ using 2 with j
        by_cases hj : j = i
        · subst hj
          simp [hnd.1]
        · simp [hj]
  obtain ⟨s', hrun, hs', hL'⟩ := hbuckets _ (List.nodup_finRange n) s L hs hL
  exact ⟨s', hrun, hs', by simpa using hL'⟩

end Sweep

end HashTable

end CompatSuva.Common
