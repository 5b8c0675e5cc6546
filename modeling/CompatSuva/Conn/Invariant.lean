import CompatSuva.Conn.Process
import CompatSuva.Scl.Outbox

/-!
# The invariant of a process

`Inv p A` says that the tables of `p` hold the registry `A`, that every tracked
block has the memory type that goes with its maker, that the memory ids handed
out are registered and distinct, and that the queue of every connection is a
chain through exactly the elements made for it and not yet released.

`Effect made freed` compares the tracked blocks before and after a step: only
makers in `freed` lose blocks and only makers in `made` get new ones. The steps
that only touch memory are here: `memAlloc_spec`, `memFree_spec`, `alloc_spec` and
`freePacketMem_spec` say that they keep `Inv` and what their effect is.
-/

namespace CompatSuva.Conn

open CompatSuva.Common CompatSuva.Scl
open CompatSuva.Mem (Malloc Registry Tracked allocWith tracked tracked_iff)

/-! ## Makers -/

namespace Maker

/-- The memory type of the blocks of a maker, where `ids` are the memory ids of the
    connections. -/
def type (ids : List (BitVec 32 × BitVec 32)) : Maker → Option (BitVec 32)
  | conn n => if n < ids.length then some suvaConnType else none
  | element n | additional n => ids[n]?.map Prod.snd
  | packet n | pointers n => ids[n]?.map Prod.fst

/-- `scl_read_packet` or `scl_get_value`, on connection `n`. -/
def Reads (n : ℕ) (mk : Maker) : Prop := mk = packet n ∨ mk = pointers n

/-- What connection `n` allocates and releases as packets come and go. -/
def Passing (n : ℕ) (mk : Maker) : Prop := mk = element n ∨ mk.Reads n

/-- Who the maker of a block of type `t` is. -/
theorem type_cases {ids : List (BitVec 32 × BitVec 32)} {mk : Maker} {t : BitVec 32}
    (h : mk.type ids = some t) :
    (∃ n, mk = conn n ∧ n < ids.length ∧ t = suvaConnType) ∨
      (∃ n x, ids[n]? = some x ∧ (mk = element n ∨ mk = additional n) ∧ t = x.2) ∨
      ∃ n x, ids[n]? = some x ∧ mk.Reads n ∧ t = x.1 := by
  cases mk with
  | conn n =>
    simp only [type] at h
    split_ifs at h with hn
    exact Or.inl ⟨n, rfl, hn, (Option.some.inj h).symm⟩
  | element n =>
    obtain ⟨x, hx, rfl⟩ := Option.map_eq_some_iff.mp h
    exact Or.inr (Or.inl ⟨n, x, hx, Or.inl rfl, rfl⟩)
  | additional n =>
    obtain ⟨x, hx, rfl⟩ := Option.map_eq_some_iff.mp h
    exact Or.inr (Or.inl ⟨n, x, hx, Or.inr rfl, rfl⟩)
  | packet n =>
    obtain ⟨x, hx, rfl⟩ := Option.map_eq_some_iff.mp h
    exact Or.inr (Or.inr ⟨n, x, hx, Or.inl rfl, rfl⟩)
  | pointers n =>
    obtain ⟨x, hx, rfl⟩ := Option.map_eq_some_iff.mp h
    exact Or.inr (Or.inr ⟨n, x, hx, Or.inr rfl, rfl⟩)

/-- The type of a maker is still its type when more connections are set up. -/
theorem type_append {ids : List (BitVec 32 × BitVec 32)} {mk : Maker} {t : BitVec 32}
    (h : mk.type ids = some t) (more : List (BitVec 32 × BitVec 32)) :
    mk.type (ids ++ more) = some t := by
  have hget : ∀ {n : ℕ} {x : BitVec 32 × BitVec 32}, ids[n]? = some x →
      (ids ++ more)[n]? = some x := by
    intro n x hx
    rw [List.getElem?_append_left (List.getElem?_eq_some_iff.mp hx).1, hx]
  rcases type_cases h with ⟨n, rfl, hn, rfl⟩ | ⟨n, x, hx, rfl | rfl, rfl⟩ |
    ⟨n, x, hx, rfl | rfl, rfl⟩
  · simp only [type]
    rw [if_pos (by simp; omega)]
  all_goals simp [type, hget hx]

end Maker

/-! ## The invariant -/

/-- The memory ids handed out. -/
def Process.allIds (p : Process) : List (BitVec 32) := p.ids.flatMap fun x => [x.1, x.2]

/-- Distinct memory ids tell which connection they belong to. -/
theorem eq_of_mem_ids {p : Process} (h : p.allIds.Nodup) {m n : ℕ} {x y : BitVec 32 × BitVec 32}
    (hx : p.ids[m]? = some x) (hy : p.ids[n]? = some y) {id : BitVec 32} (hidx : id ∈ [x.1, x.2])
    (hidy : id ∈ [y.1, y.2]) : m = n := by
  obtain ⟨-, hdis⟩ := List.nodup_flatMap.mp h
  obtain ⟨hm, rfl⟩ := List.getElem?_eq_some_iff.mp hx
  obtain ⟨hn, rfl⟩ := List.getElem?_eq_some_iff.mp hy
  have hpair := List.pairwise_iff_getElem.mp hdis
  rcases lt_trichotomy m n with hlt | heq | hgt
  · exact absurd hidy (hpair m n hm hn hlt hidx)
  · exact heq
  · exact absurd hidx (hpair n m hn hm hgt hidy)

/-- The two memory ids of a connection differ. -/
theorem ids_ne {p : Process} (h : p.allIds.Nodup) {n : ℕ} {x : BitVec 32 × BitVec 32}
    (hx : p.ids[n]? = some x) : x.1 ≠ x.2 := by
  obtain ⟨hnd, -⟩ := List.nodup_flatMap.mp h
  have := hnd x (List.mem_of_getElem? hx)
  simpa using this

/-- The queue of connection `n`, whose struct is at `c`, is the list `l`: a chain
    from `out_ele_queue` through exactly the live elements made for it, with
    `out_cur_ele` at its end, or null since an allocation has failed. -/
structure Queue (p : Process) (A : Registry) (c : Addr) (n : ℕ) (l : List (Addr × SclEle)) :
    Prop where
  ne_nil : l ≠ []
  chain : IsChain p.writer.heap (p.writer.conns c).outEleQueue l
  mem_iff : ∀ a, a ∈ l.map Prod.fst ↔ (A.ptrs a).isSome ∧ p.maker a = some (.element n)
  cur : (p.writer.conns c).outCurEle = 0 ∨ ∃ l' z, l = l' ++ [((p.writer.conns c).outCurEle, z)]

variable (wide : Byte → ℕ → BitVec 32)

/-- The invariant of a process. -/
structure Inv (p : Process) (A : Registry) : Prop where
  mem : Mem.Refines wide p.mem A
  typed : ∀ a e, A.ptrs a = some e → ∃ mk, p.maker a = some mk ∧ mk.type p.ids = some e.type
  conn_type : p.ids ≠ [] → (A.types suvaConnType).isSome
  known : ∀ id ∈ p.allIds, (A.types id).isSome ∧ id ≠ 0 ∧ id ≠ suvaConnType
  nodup : p.allIds.Nodup
  heap : ∀ a, (p.writer.heap.get a).isSome → (A.ptrs a).isSome ∧ ∃ n, p.maker a = some (.element n)
  conns : ∀ c conn, p.conns.get c = some conn → (A.ptrs c).isSome ∧
    p.maker c = some (.conn conn.number) ∧ p.ids[conn.number]? = some (conn.inMemId, conn.outMemId)
  unique : ∀ c c' conn conn', p.conns.get c = some conn → p.conns.get c' = some conn' →
    conn.number = conn'.number → c = c'
  queue : ∀ c conn, p.conns.get c = some conn → ∃ l, Queue p A c conn.number l

/-- What happens to the tracked blocks from `(p, A)` to `(p', A')`: blocks of makers
    outside `freed` stay, and new blocks are by makers in `made`. Connections stay
    connections, unless their struct may be released. -/
structure Effect (made freed : Maker → Prop) (p : Process) (A : Registry) (p' : Process)
    (A' : Registry) : Prop where
  ids : p.ids <+: p'.ids
  kept : ∀ a e, A.ptrs a = some e → (∀ mk, p.maker a = some mk → ¬ freed mk) →
    A'.ptrs a = some e ∧ p'.maker a = p.maker a
  new : ∀ a e, A'.ptrs a = some e →
    A.ptrs a = some e ∧ p'.maker a = p.maker a ∨ ∃ mk, p'.maker a = some mk ∧ made mk
  conns : ∀ c conn, p.conns.get c = some conn → ¬ freed (.conn conn.number) →
    ∃ conn', p'.conns.get c = some conn' ∧ conn'.number = conn.number

namespace Effect

variable {made freed made' freed' : Maker → Prop} {p p₁ p₂ : Process} {A A₁ A₂ : Registry}

theorem refl : Effect made freed p A p A where
  ids := List.prefix_refl _
  kept _ _ he _ := ⟨he, rfl⟩
  new _ _ he := Or.inl ⟨he, rfl⟩
  conns _ conn hc _ := ⟨conn, hc, rfl⟩

theorem mono (h : Effect made freed p A p₁ A₁) (hm : ∀ mk, made mk → made' mk)
    (hf : ∀ mk, freed mk → freed' mk) : Effect made' freed' p A p₁ A₁ where
  ids := h.ids
  kept a e he hmk := h.kept a e he fun k hk hfreed => hmk k hk (hf k hfreed)
  new a e he := (h.new a e he).imp_right fun ⟨k, hk, hmade⟩ => ⟨k, hk, hm k hmade⟩
  conns c conn hc hn := h.conns c conn hc fun hfreed => hn (hf _ hfreed)

theorem trans (h : Effect made freed p A p₁ A₁) (h' : Effect made freed p₁ A₁ p₂ A₂) :
    Effect made freed p A p₂ A₂ where
  ids := h.ids.trans h'.ids
  kept a e he hmk := by
    obtain ⟨he₁, hmk₁⟩ := h.kept a e he hmk
    obtain ⟨he₂, hmk₂⟩ := h'.kept a e he₁ (by rwa [hmk₁])
    exact ⟨he₂, hmk₂.trans hmk₁⟩
  new a e he := by
    rcases h'.new a e he with ⟨he₁, hmk₁⟩ | hmade
    · rcases h.new a e he₁ with ⟨he₀, hmk₀⟩ | ⟨k, hk, hmade⟩
      · exact Or.inl ⟨he₀, hmk₁.trans hmk₀⟩
      · exact Or.inr ⟨k, hmk₁.trans hk, hmade⟩
    · exact Or.inr hmade
  conns c conn hc hn := by
    obtain ⟨conn₁, hc₁, hn₁⟩ := h.conns c conn hc hn
    obtain ⟨conn₂, hc₂, hn₂⟩ := h'.conns c conn₁ hc₁ (by rwa [hn₁])
    exact ⟨conn₂, hc₂, hn₂.trans hn₁⟩

end Effect

variable {wide} {p p' : Process} {A A' : Registry} {c : Addr} {conn : SuvaConn}
variable {l : List (Addr × SclEle)}

/-! ## Framing -/

/-- A queue only depends on its own elements and the pointers to its ends. -/
theorem Queue.frame {n : ℕ} (h : Queue p A c n l)
    (hstart : (p'.writer.conns c).outEleQueue = (p.writer.conns c).outEleQueue)
    (hcur : (p'.writer.conns c).outCurEle = (p.writer.conns c).outCurEle)
    (hheap : ∀ a, (A.ptrs a).isSome → p.maker a = some (.element n) →
      p'.writer.heap.get a = p.writer.heap.get a)
    (hmem : ∀ a, (A'.ptrs a).isSome ∧ p'.maker a = some (.element n) ↔
      (A.ptrs a).isSome ∧ p.maker a = some (.element n)) : Queue p' A' c n l where
  ne_nil := h.ne_nil
  chain := by
    rw [hstart]
    apply h.chain.congr
    intro x hx
    obtain ⟨hptr, hmk⟩ := (h.mem_iff x.1).mp (List.mem_map_of_mem hx)
    exact hheap x.1 hptr hmk
  mem_iff a := (h.mem_iff a).trans (hmem a).symm
  cur := by
    rw [hcur]
    exact h.cur

/-- A connection whose struct is tracked can be read. -/
theorem conn_ok (hmem : Mem.Refines wide p.mem A) (hptr : (A.ptrs c).isSome)
    (hc : p.conns.get c = some conn) : p.conn wide c = .ok conn := by
  unfold Process.conn
  rw [hc]
  show (if tracked wide p.mem c then _ else _) = _
  rw [if_pos ((tracked_iff hmem c).mpr hptr)]

/-- Where there is no connection, nothing can be read. -/
theorem conn_none (hc : p.conns.get c = none) : p.conn wide c = .error .other := by
  unfold Process.conn
  rw [hc]

/-- An element that is tracked can be dereferenced. -/
theorem element_ok (hmem : Mem.Refines wide p.mem A) {a : Addr} {ele : Node SclEle}
    (hptr : (A.ptrs a).isSome) (ha : p.writer.heap.get a = some ele) :
    p.element wide a = .ok ele := by
  unfold Process.element
  rw [ha]
  show (if tracked wide p.mem a then _ else _) = _
  rw [if_pos ((tracked_iff hmem a).mpr hptr)]

namespace Inv

/-- The memory ids of a connection are known. -/
theorem ids_mem (h : Inv wide p A) (hc : p.conns.get c = some conn) :
    conn.inMemId ∈ p.allIds ∧ conn.outMemId ∈ p.allIds := by
  obtain ⟨-, -, hget⟩ := h.conns c conn hc
  have hmem := List.mem_of_getElem? hget
  unfold Process.allIds
  exact ⟨List.mem_flatMap.mpr ⟨_, hmem, by simp⟩, List.mem_flatMap.mpr ⟨_, hmem, by simp⟩⟩

/-- The type of a maker is registered. -/
theorem types_isSome (h : Inv wide p A) {mk : Maker} {t : BitVec 32}
    (ht : mk.type p.ids = some t) : (A.types t).isSome := by
  have hid : ∀ {n : ℕ} {x : BitVec 32 × BitVec 32}, p.ids[n]? = some x →
      ∀ id ∈ [x.1, x.2], (A.types id).isSome := by
    intro n x hx id hid
    apply And.left
    apply h.known
    exact List.mem_flatMap.mpr ⟨x, List.mem_of_getElem? hx, hid⟩
  rcases Maker.type_cases ht with ⟨n, -, hn, rfl⟩ | ⟨n, x, hx, -, rfl⟩ | ⟨n, x, hx, -, rfl⟩
  · apply h.conn_type
    intro hnil
    simp [hnil] at hn
  · exact hid hx _ (by simp)
  · exact hid hx _ (by simp)

/-- Nothing lives where nothing is tracked. -/
theorem heap_none (h : Inv wide p A) {a : Addr} (hnone : A.ptrs a = none) :
    p.writer.heap.get a = none := by
  by_contra hlive
  obtain ⟨hptr, -⟩ := h.heap a (Option.isSome_iff_ne_none.mpr hlive)
  simp [hnone] at hptr

theorem conns_none (h : Inv wide p A) (hnone : A.ptrs c = none) : p.conns.get c = none := by
  by_contra hlive
  obtain ⟨conn, hc⟩ := Option.ne_none_iff_exists'.mp hlive
  have hptr := (h.conns c conn hc).1
  simp [hnone] at hptr

/-- A connection can be read. -/
theorem conn_ok (h : Inv wide p A) (hc : p.conns.get c = some conn) :
    p.conn wide c = .ok conn := Conn.conn_ok h.mem (h.conns c conn hc).1 hc

/-- The blocks with the incoming type of connection `n` are those it has read. -/
theorem reads_of_type (h : Inv wide p A) (hc : p.conns.get c = some conn) {mk : Maker}
    (ht : mk.type p.ids = some conn.inMemId) : mk.Reads conn.number := by
  obtain ⟨-, -, hget⟩ := h.conns c conn hc
  have hmine : conn.inMemId ∈ [conn.inMemId, conn.outMemId] := by simp
  rcases Maker.type_cases ht with ⟨n, -, -, hid⟩ | ⟨n, x, hx, -, hid⟩ | ⟨n, x, hx, hreads, hid⟩
  · exact absurd hid (h.known _ (h.ids_mem hc).1).2.2
  · have hn := eq_of_mem_ids h.nodup hget hx hmine (by simp [hid])
    subst hn
    rw [hget] at hx
    obtain rfl := Option.some.inj hx
    exact absurd hid (ids_ne h.nodup hget)
  · have hn := eq_of_mem_ids h.nodup hget hx hmine (by simp [hid])
    rwa [hn]

/-- The blocks with the outgoing type of connection `n` are the elements of its queue
    and its additional packet memory. -/
theorem made_of_type (h : Inv wide p A) (hc : p.conns.get c = some conn) {mk : Maker}
    (ht : mk.type p.ids = some conn.outMemId) :
    mk = .element conn.number ∨ mk = .additional conn.number := by
  obtain ⟨-, -, hget⟩ := h.conns c conn hc
  have hmine : conn.outMemId ∈ [conn.inMemId, conn.outMemId] := by simp
  rcases Maker.type_cases ht with ⟨n, -, -, hid⟩ | ⟨n, x, hx, hmk, hid⟩ | ⟨n, x, hx, -, hid⟩
  · exact absurd hid (h.known _ (h.ids_mem hc).2).2.2
  · have hn := eq_of_mem_ids h.nodup hget hx hmine (by simp [hid])
    rwa [hn]
  · have hn := eq_of_mem_ids h.nodup hget hx hmine (by simp [hid])
    subst hn
    rw [hget] at hx
    obtain rfl := Option.some.inj hx
    exact absurd hid.symm (ids_ne h.nodup hget)

/-- The invariant after a step that registers no type and sets up no connection. -/
theorem update (h : Inv wide p A) (hmem : Mem.Refines wide p'.mem A') (htypes : A'.types = A.types)
    (hids : p'.ids = p.ids)
    (htyped : ∀ a e, A'.ptrs a = some e → A.ptrs a = some e ∧ p'.maker a = p.maker a ∨
      ∃ mk, p'.maker a = some mk ∧ mk.type p.ids = some e.type)
    (hheap : ∀ a, (p'.writer.heap.get a).isSome →
      (A'.ptrs a).isSome ∧ ∃ n, p'.maker a = some (.element n))
    (hconns : ∀ c conn', p'.conns.get c = some conn' → ∃ conn, p.conns.get c = some conn ∧
      conn'.number = conn.number ∧ conn'.inMemId = conn.inMemId ∧
      conn'.outMemId = conn.outMemId ∧ (A'.ptrs c).isSome ∧ p'.maker c = p.maker c)
    (hqueue : ∀ c conn', p'.conns.get c = some conn' → ∃ l, Queue p' A' c conn'.number l) :
    Inv wide p' A' where
  mem := hmem
  typed a e he := by
    rw [hids]
    rcases htyped a e he with ⟨he₀, hmk⟩ | hmk
    · rw [hmk]
      exact h.typed a e he₀
    · exact hmk
  conn_type := by
    rw [hids, htypes]
    exact h.conn_type
  known := by
    unfold Process.allIds
    rw [hids, htypes]
    exact h.known
  nodup := by
    unfold Process.allIds
    rw [hids]
    exact h.nodup
  heap := hheap
  conns c conn' hc := by
    obtain ⟨conn, hc₀, hnum, hin, hout, hptr, hmk⟩ := hconns c conn' hc
    obtain ⟨-, hmk₀, hget⟩ := h.conns c conn hc₀
    rw [hnum, hin, hout, hids, hmk]
    exact ⟨hptr, hmk₀, hget⟩
  unique c c' conn₁ conn₁' hc hc' hnum := by
    obtain ⟨conn₀, hc₀, hnum₀, -⟩ := hconns c conn₁ hc
    obtain ⟨conn₀', hc₀', hnum₀', -⟩ := hconns c' conn₁' hc'
    exact h.unique c c' conn₀ conn₀' hc₀ hc₀' (by rw [← hnum₀, ← hnum₀', hnum])
  queue := hqueue

end Inv

/-! ## Memory -/

/-- What `mem_alloc` by `mk` with the result `a` leaves of the state `(p, A)`: the
    blocks there were, and a block at `a` unless that is null. -/
structure Allocated (p : Process) (A : Registry) (mk : Maker) (type : BitVec 32) (a : Addr)
    (p₁ : Process) (A₁ : Registry) : Prop where
  types : A₁.types = A.types
  ids : p₁.ids = p.ids
  conns : p₁.conns = p.conns
  writer : p₁.writer = p.writer
  old : ∀ b, (A.ptrs b).isSome → A₁.ptrs b = A.ptrs b ∧ p₁.maker b = p.maker b
  now : ∀ b e, A₁.ptrs b = some e → A.ptrs b = some e ∧ p₁.maker b = p.maker b ∨
    b = a ∧ p₁.maker a = some mk ∧ e.type = type
  fresh : a ≠ 0 → A.ptrs a = none ∧ (A₁.ptrs a).isSome ∧ p₁.maker a = some mk

/-- The sockets have no part in it. -/
theorem Allocated.setSockets {mk : Maker} {type : BitVec 32} {a : Addr} {p₁ : Process}
    {A₁ : Registry} (h : Allocated p A mk type a p₁ A₁) (S : Finset ℕ) :
    Allocated p A mk type a ({ p₁ with sockets := S } : Process) A₁ :=
  ⟨h.types, h.ids, h.conns, h.writer, h.old, h.now, h.fresh⟩

/-- `mem_alloc`: NULL when a `malloc` fails or the type is unknown, else a new block. -/
theorem memAlloc_spec (hmem : Mem.Refines wide p.mem A) (type size : BitVec 32)
    (m : Option (Malloc × Malloc)) (mk : Maker) :
    ∃ a p₁ A₁, p.memAlloc wide type size m mk = .ok (a, p₁) ∧ Mem.Refines wide p₁.mem A₁ ∧
      Allocated p A mk type a p₁ A₁ ∧ (a = 0 ↔ m = none ∨ A.types type = none) := by
  rcases Mem.allocWith_refines hmem type size m with
    ⟨hrun, hfail⟩ | ⟨a, mem, hrun, ha, hm, hnew, ht, href⟩
  · refine ⟨0, p, A, ?_, hmem, ⟨rfl, rfl, rfl, rfl, fun _ _ => ⟨rfl, rfl⟩,
      fun _ _ he => Or.inl ⟨he, rfl⟩, fun h => absurd rfl h⟩, by simp [hfail]⟩
    simp only [Process.memAlloc, hrun, orFault_some, ok_bind, if_true]
  · refine ⟨a, { p with mem := mem, maker := Function.update p.maker a (some mk) },
      A.setPtr a (some ⟨size, false, type⟩), ?_, href, ⟨rfl, rfl, rfl, rfl, ?_, ?_, ?_⟩,
      by simp [ha, hm, Option.isSome_iff_ne_none.mp ht]⟩
    · simp only [Process.memAlloc, hrun, orFault_some, ok_bind, if_neg ha]
    · intro b hb
      have hne : b ≠ a := by
        intro heq
        simp [heq, hnew] at hb
      exact ⟨Function.update_of_ne hne _ _, Function.update_of_ne hne _ _⟩
    · intro b e he
      by_cases hb : b = a
      · subst hb
        simp only [Registry.setPtr, Function.update_self, Option.some.injEq] at he
        exact Or.inr ⟨rfl, Function.update_self _ _ _, by rw [← he]⟩
      · simp only [Registry.setPtr, Function.update_of_ne hb] at he
        exact Or.inl ⟨he, Function.update_of_ne hb _ _⟩
    · intro _
      refine ⟨hnew, ?_, Function.update_self _ _ _⟩
      simp [Registry.setPtr]

/-- The effect of an allocation. -/
theorem Allocated.effect {mk : Maker} {type : BitVec 32} {a : Addr}
    (h : Allocated p A mk type a p' A') : Effect (· = mk) (fun _ => False) p A p' A' where
  ids := by
    rw [h.ids]
  kept b e he _ := by
    obtain ⟨hp, hk⟩ := h.old b (by simp [he])
    exact ⟨hp.trans he, hk⟩
  new b e he := by
    rcases h.now b e he with hold | ⟨rfl, hk, -⟩
    · exact Or.inl hold
    · exact Or.inr ⟨mk, hk, rfl⟩
  conns c conn hc _ := ⟨conn, h.conns ▸ hc, rfl⟩

/-- An allocation leaves the elements of a queue, unless it is for one. -/
theorem Allocated.elements {mk : Maker} {type : BitVec 32} {a : Addr}
    (h : Allocated p A mk type a p' A') {n : ℕ} (hmk : mk ≠ .element n) (b : Addr) :
    (A'.ptrs b).isSome ∧ p'.maker b = some (.element n) ↔
      (A.ptrs b).isSome ∧ p.maker b = some (.element n) := by
  constructor
  · intro hb
    obtain ⟨e, he⟩ := Option.isSome_iff_exists.mp hb.1
    rcases h.now b e he with ⟨he₀, hk⟩ | ⟨rfl, hk, -⟩
    · exact ⟨by simp [he₀], hk ▸ hb.2⟩
    · rw [hk] at hb
      exact absurd (Option.some.inj hb.2) hmk
  · intro hb
    obtain ⟨hp, hk⟩ := h.old b hb.1
    exact ⟨hp ▸ hb.1, hk.trans hb.2⟩

/-- The invariant after an allocation, with a new state `w` of the writer: what lives
    in it was there or is an element, and the queues are queues. -/
theorem Allocated.inv {mk : Maker} {type : BitVec 32} {a : Addr}
    (hal : Allocated p A mk type a p' A') (h : Inv wide p A) (hmem : Mem.Refines wide p'.mem A')
    (ht : mk.type p.ids = some type) (w : Writer Addr)
    (hheap : ∀ b, (w.heap.get b).isSome → (p.writer.heap.get b).isSome ∨
      (A'.ptrs b).isSome ∧ ∃ n, p'.maker b = some (.element n))
    (hqueue : ∀ c conn, p.conns.get c = some conn →
      ∃ l, Queue { p' with writer := w } A' c conn.number l) :
    Inv wide { p' with writer := w } A' := by
  refine h.update hmem hal.types hal.ids ?_ ?_ ?_ fun c conn hc => hqueue c conn (hal.conns ▸ hc)
  · intro b e he
    rcases hal.now b e he with hold | ⟨rfl, hk, het⟩
    · exact Or.inl hold
    · exact Or.inr ⟨mk, hk, by rw [ht, het]⟩
  · intro b hb
    rcases hheap b hb with hb | hnew
    · obtain ⟨hptr, n, hmaker⟩ := h.heap b hb
      obtain ⟨hp, hk⟩ := hal.old b hptr
      exact ⟨hp ▸ hptr, n, hk.trans hmaker⟩
    · exact hnew
  · intro c conn hc
    have hc₀ : p.conns.get c = some conn := hal.conns ▸ hc
    obtain ⟨hptr, -, -⟩ := h.conns c conn hc₀
    obtain ⟨hp, hk⟩ := hal.old c hptr
    exact ⟨conn, hc₀, rfl, rfl, rfl, hp ▸ hptr, hk⟩

/-- What releasing the blocks at `L` leaves of the state `(p, A)`: those blocks are
    gone, with what lived there. -/
structure Released (p : Process) (A : Registry) (L : List Addr) (p₁ : Process) (A₁ : Registry) :
    Prop where
  types : A₁.types = A.types
  ids : p₁.ids = p.ids
  maker : p₁.maker = p.maker
  gone : ∀ a ∈ L, A₁.ptrs a = none ∧ p₁.writer.heap.get a = none ∧ p₁.conns.get a = none
  same : ∀ a, a ∉ L → A₁.ptrs a = A.ptrs a ∧ p₁.writer.heap.get a = p.writer.heap.get a ∧
    p₁.conns.get a = p.conns.get a

/-- `mem_free`: the block is gone, with what lived there. -/
theorem memFree_spec (hmem : Mem.Refines wide p.mem A) (a : Addr) :
    ∃ p₁ A₁, p.memFree wide a = .ok p₁ ∧ Mem.Refines wide p₁.mem A₁ ∧ Released p A [a] p₁ A₁ ∧
      p₁.writer.conns = p.writer.conns ∧ p₁.sockets = p.sockets := by
  obtain ⟨mem, hrun, href⟩ := Mem.memFree_refines hmem a
  refine ⟨{ p with
    mem := mem
    conns := p.conns.free a
    writer := { p.writer with heap := p.writer.heap.free a } }, A.setPtr a none, ?_, href,
    ⟨rfl, rfl, rfl, ?_, ?_⟩, rfl, rfl⟩
  · simp only [Process.memFree, hrun, ok_bind, orFault_some]
  · intro b hb
    obtain rfl := List.mem_singleton.mp hb
    exact ⟨Function.update_self _ _ _, Heap.get_free _ _, Heap.get_free _ _⟩
  · intro b hb
    have hne : b ≠ a := by simpa using hb
    exact ⟨Function.update_of_ne hne _ _, Heap.get_free_ne _ hne, Heap.get_free_ne _ hne⟩

namespace Released

variable {L : List Addr}

/-- What is still tracked was tracked before. -/
theorem ptrs (h : Released p A L p' A') {a : Addr} {e : Tracked} (he : A'.ptrs a = some e) :
    A.ptrs a = some e ∧ a ∉ L := by
  have ha : a ∉ L := by
    intro ha
    simp [(h.gone a ha).1] at he
  exact ⟨(h.same a ha).1 ▸ he, ha⟩

/-- One release after another. -/
theorem cons {a : Addr} {p₂ : Process} {A₂ : Registry} (h : Released p A [a] p' A')
    (h' : Released p' A' L p₂ A₂) : Released p A (a :: L) p₂ A₂ where
  types := h'.types.trans h.types
  ids := h'.ids.trans h.ids
  maker := h'.maker.trans h.maker
  gone b hb := by
    by_cases hbL : b ∈ L
    · exact h'.gone b hbL
    · obtain ⟨hp, hh, hk⟩ := h'.same b hbL
      rw [hp, hh, hk]
      exact h.gone b (by simpa [hbL] using hb)
  same b hb := by
    rw [List.mem_cons, not_or] at hb
    obtain ⟨hp, hh, hk⟩ := h'.same b hb.2
    rw [hp, hh, hk]
    exact h.same b (by simpa using hb.1)

/-- A queue none of whose elements is released. -/
theorem queue (h : Released p A L p' A') {n : ℕ} (hq : Queue p A c n l)
    (hL : ∀ a ∈ L, p.maker a ≠ some (.element n))
    (hstart : (p'.writer.conns c).outEleQueue = (p.writer.conns c).outEleQueue)
    (hcur : (p'.writer.conns c).outCurEle = (p.writer.conns c).outCurEle) :
    Queue p' A' c n l := by
  have hout : ∀ a, p.maker a = some (.element n) → a ∉ L := fun a hmk ha => hL a ha hmk
  refine hq.frame hstart hcur (fun a _ hmk => (h.same a (hout a hmk)).2.1) fun a => ?_
  rw [h.maker]
  constructor
  · intro ha
    exact ⟨(h.same a (hout a ha.2)).1 ▸ ha.1, ha.2⟩
  · intro ha
    exact ⟨(h.same a (hout a ha.2)).1 ▸ ha.1, ha.2⟩

/-- The invariant, when the queues that are left are still queues. -/
theorem inv (h : Released p A L p' A') (hp : Inv wide p A) (hmem : Mem.Refines wide p'.mem A')
    (hqueue : ∀ c conn, p'.conns.get c = some conn → ∃ l, Queue p' A' c conn.number l) :
    Inv wide p' A' := by
  have hconn : ∀ c conn, p'.conns.get c = some conn → p.conns.get c = some conn ∧ c ∉ L := by
    intro c conn hc
    have hcL : c ∉ L := by
      intro hcL
      simp [(h.gone c hcL).2.2] at hc
    exact ⟨(h.same c hcL).2.2 ▸ hc, hcL⟩
  refine hp.update hmem h.types h.ids ?_ ?_ ?_ hqueue
  · intro a e he
    exact Or.inl ⟨(h.ptrs he).1, congrFun h.maker a⟩
  · intro a ha
    have haL : a ∉ L := by
      intro haL
      simp [(h.gone a haL).2.1] at ha
    obtain ⟨hptr, hheap, -⟩ := h.same a haL
    rw [hptr, h.maker]
    exact hp.heap a (hheap ▸ ha)
  · intro c conn hc
    obtain ⟨hc₀, hcL⟩ := hconn c conn hc
    refine ⟨conn, hc₀, rfl, rfl, rfl, ?_, congrFun h.maker c⟩
    rw [(h.same c hcL).1]
    exact (hp.conns c conn hc₀).1

/-- The effect of releasing blocks by `freed`. -/
theorem effect (h : Released p A L p' A') (hp : Inv wide p A) {freed : Maker → Prop}
    (hL : ∀ a ∈ L, ∃ mk, p.maker a = some mk ∧ freed mk) :
    Effect (fun _ => False) freed p A p' A' where
  ids := by
    rw [h.ids]
  kept a e he hmk := by
    have haL : a ∉ L := by
      intro haL
      obtain ⟨mk, hk, hfreed⟩ := hL a haL
      exact hmk mk hk hfreed
    exact ⟨(h.same a haL).1.trans he, congrFun h.maker a⟩
  new a e he := Or.inl ⟨(h.ptrs he).1, congrFun h.maker a⟩
  conns c conn hc hn := by
    have hcL : c ∉ L := by
      intro hcL
      obtain ⟨mk, hk, hfreed⟩ := hL c hcL
      rw [(hp.conns c conn hc).2.1] at hk
      exact hn (Option.some.inj hk ▸ hfreed)
    exact ⟨conn, (h.same c hcL).2.2.trans hc, rfl⟩

end Released

/-- Allocating a block that is no queue element. -/
theorem alloc_spec (h : Inv wide p A) {mk : Maker} {type : BitVec 32}
    (ht : mk.type p.ids = some type) (hmk : ∀ n, mk ≠ .element n) (size : BitVec 32)
    (m : Option (Malloc × Malloc)) :
    ∃ a p' A', p.memAlloc wide type size m mk = .ok (a, p') ∧ Inv wide p' A' ∧
      Allocated p A mk type a p' A' ∧ (a = 0 ↔ m = none) := by
  obtain ⟨a, p₁, A₁, hrun, href, hal, hm⟩ := memAlloc_spec h.mem type size m mk
  have hreg : A.types type ≠ none := Option.isSome_iff_ne_none.mp (h.types_isSome ht)
  refine ⟨a, p₁, A₁, hrun, hal.inv h href ht p₁.writer ?_ ?_, hal, by simp [hm, hreg]⟩
  · intro b hb
    rw [hal.writer] at hb
    exact Or.inl hb
  · intro c conn hc
    obtain ⟨l, hl⟩ := h.queue c conn hc
    exact ⟨l, hl.frame (by rw [hal.writer]) (by rw [hal.writer]) (fun _ _ _ => by rw [hal.writer])
      (hal.elements (hmk _))⟩

/-- `scl_free_packet_mem` releases what the connection has read. -/
theorem freePacketMem_spec (h : Inv wide p A) (hc : p.conns.get c = some conn) :
    ∃ p' A', p.freePacketMem wide c = .ok p' ∧ Inv wide p' A' ∧
      Effect (fun _ => False) (Maker.Reads conn.number) p A p' A' ∧ p'.conns = p.conns ∧
      p'.writer = p.writer ∧ p'.maker = p.maker ∧
      ∀ a e, A'.ptrs a = some e ↔ A.ptrs a = some e ∧ e.type ≠ conn.inMemId := by
  obtain ⟨mem, hrun, href⟩ := Mem.memFreeAll_refines h.mem conn.inMemId
  have hne : conn.inMemId ≠ 0 := (h.known _ (h.ids_mem hc).1).2.1
  unfold Registry.step at href
  simp only [if_neg hne] at href
  have hptrs : ∀ a e, (A.ptrs a).filter (fun e => decide (e.type ≠ conn.inMemId)) = some e ↔
      A.ptrs a = some e ∧ e.type ≠ conn.inMemId := by
    intro a e
    rw [Option.filter_eq_some_iff]
    simp
  -- blocks by other makers have other types
  have hkept : ∀ a e mk, A.ptrs a = some e → p.maker a = some mk → ¬ mk.Reads conn.number →
      (A.ptrs a).filter (fun e => decide (e.type ≠ conn.inMemId)) = some e := by
    intro a e mk he hmk hreads
    rw [hptrs]
    refine ⟨he, fun htype => hreads ?_⟩
    obtain ⟨mk', hmk', ht⟩ := h.typed a e he
    rw [hmk] at hmk'
    obtain rfl := Option.some.inj hmk'
    exact h.reads_of_type hc (htype ▸ ht)
  have hsome : ∀ a mk, (A.ptrs a).isSome → p.maker a = some mk → ¬ mk.Reads conn.number →
      ((A.ptrs a).filter (fun e => decide (e.type ≠ conn.inMemId))).isSome := by
    intro a mk ha hmk hreads
    obtain ⟨e, he⟩ := Option.isSome_iff_exists.mp ha
    rw [hkept a e mk he hmk hreads]
    rfl
  refine ⟨{ p with mem := mem },
    { A with ptrs := fun a => (A.ptrs a).filter fun e => e.type ≠ conn.inMemId },
    ?_, ?_, ?_, rfl, rfl, rfl, hptrs⟩
  · simp only [Process.freePacketMem, h.conn_ok hc, hrun, ok_bind, orFault_some]
  · refine h.update href rfl rfl ?_ ?_ ?_ ?_
    · intro a e he
      exact Or.inl ⟨((hptrs a e).mp he).1, rfl⟩
    · intro a ha
      obtain ⟨hptr, n, hmk⟩ := h.heap a ha
      exact ⟨hsome a _ hptr hmk (by simp [Maker.Reads]), n, hmk⟩
    · intro c' conn' hc'
      obtain ⟨hptr, hmk, -⟩ := h.conns c' conn' hc'
      exact ⟨conn', hc', rfl, rfl, rfl, hsome c' _ hptr hmk (by simp [Maker.Reads]), rfl⟩
    · intro c' conn' hc'
      obtain ⟨l, hl⟩ := h.queue c' conn' hc'
      refine ⟨l, hl.frame rfl rfl (fun _ _ _ => rfl) fun a => ?_⟩
      constructor
      · intro ha
        obtain ⟨e, he⟩ := Option.isSome_iff_exists.mp ha.1
        exact ⟨by simp [((hptrs a e).mp he).1], ha.2⟩
      · intro ha
        exact ⟨hsome a _ ha.1 ha.2 (by simp [Maker.Reads]), ha.2⟩
  · refine ⟨List.prefix_refl _, ?_, ?_, fun c' conn' hc' _ => ⟨conn', hc', rfl⟩⟩
    · intro a e he hfreed
      obtain ⟨mk, hmk, -⟩ := h.typed a e he
      exact ⟨hkept a e mk he hmk (hfreed mk hmk), rfl⟩
    · intro a e he
      exact Or.inl ⟨((hptrs a e).mp he).1, rfl⟩

end CompatSuva.Conn
