import CompatSuva.Common.HashTable
import CompatSuva.Common.LittleEndian

/-!
# The memory tables

Model of the memory manager `mem.c`: the two hash tables `pMemList` (tracked
pointers) and `pMemInfo` (registered memory types), the blocks the pointers own,
and the functions that edit them.

The tables are chained cells in a heap, as in the source, so that a dangling
`p_info` or a broken chain would show: a function that would follow one returns
`none`. The results of `malloc`, `calloc` and `realloc` are arguments (0 for
failure). Nothing is printed, since `suva_conf.h` defines `SCO_MEM_HUSH`.
-/

namespace CompatSuva.Mem

open CompatSuva.Common

/-! ## Constants and data -/

/-- `MEM_HASH_SIZE` (`suva_conf.h` line 57). -/
def memHashSize : ℕ := 10240

/-- The result codes of `mem.h` (lines 12–30). -/
def memResBadType : ℤ := -6
/-- `MEM_RES_ISNULL`. -/
def memResIsNull : ℤ := -5
/-- `MEM_RES_INUSE`. -/
def memResInUse : ℤ := -3
/-- `MEM_RES_SYSCALL`. -/
def memResSysCall : ℤ := -2
/-- `MEM_RES_EXISTS`. -/
def memResExists : ℤ := -1
/-- `MEM_RES_OK`. -/
def memResOk : ℤ := 0

/-- A free callback (`mem_cb_free_t`), by identity. -/
abbrev Callback := ℕ

/-- `MEM_MAX_NAME`. -/
def memMaxName : ℕ := 32

/-- `struct MemInfo_t` without its link. -/
structure MemInfo where
  type : BitVec 32
  name : List Byte
  cbFree : Option Callback
  deriving DecidableEq, Repr

/-- `struct MemList_t` without its link. `stored` is the flag `MEM_FLG_STORED`,
    the only one the code ever sets. -/
structure MemList where
  pPtr : Addr
  size : BitVec 32
  stored : Bool
  pInfo : Addr
  deriving DecidableEq, Repr

/-- What the manager does to memory outside its tables. -/
inductive MemEvent where
  /-- `free(p)` of a block that then held `bytes`. -/
  | released (p : Addr) (bytes : List Byte)
  /-- The free callback of a type was called. -/
  | callback (cb : Callback) (type : BitVec 32) (p : Addr) (size : BitVec 32)
  /-- `memset` wrote past the end of the block at `p`, or into no block at all. -/
  | wild (p : Addr) (size : BitVec 32)
  deriving DecidableEq, Repr

/-- The state: `pMemList`, `pMemInfo`, the live blocks with their contents, and
    what happened to memory so far. -/
structure MemState where
  list : HashTable memHashSize MemList
  info : HashTable memHashSize MemInfo
  blocks : Heap (List Byte)
  log : List MemEvent

/-- `mem_init` (lines 31–38). -/
def memInit : MemState := ⟨HashTable.empty _ _, HashTable.empty _ _, Heap.empty, []⟩

/-! ## Hashing and searching

`wide b i` is what the machine computes for `b >> i` when `i ≥ 32`; C leaves it
undefined. -/

variable (wide : Byte → ℕ → BitVec 32)

/-- `*p_ukey >> i`, on the promoted `int`. -/
def shiftRight (b : Byte) (i : ℕ) : BitVec 32 :=
  if i < 32 then BitVec.ofNat 32 (b.toNat >>> i) else wide b i

/-- `mem_hash` (lines 805–815). `p_ukey` is never advanced, so every round reads
    the first byte of the key. -/
def memHash (key : List Byte) : Fin memHashSize :=
  ⟨((List.range key.length).foldl
      (fun hash k => hash + shiftRight wide (key.headD 0) (8 * k)) (0 : BitVec 32)).toNat %
    memHashSize, Nat.mod_lt _ (by decide)⟩

/-- `mem_hash(&p_ptr, sizeof(void *))`, with 8-byte pointers. -/
def hashPtr (p : Addr) : Fin memHashSize := memHash wide (leBytes 8 p)

/-- `mem_hash(&type, sizeof(unsigned int))`. -/
def hashType (type : BitVec 32) : Fin memHashSize := memHash wide (bytesOf type)

/-- `mem_find_type` (lines 853–868). -/
def memFindType (s : MemState) (type : BitVec 32) : Option (Option (Addr × MemInfo)) :=
  s.info.find MemInfo.type (hashType wide) type

/-- `mem_find_ptr` (lines 818–850). When the pointer is not in its bucket, every
    bucket is searched; the inner `break` leaves one bucket only, so the result is
    that of the last one. -/
def memFindPtr (s : MemState) (p : Addr) : Option (Option (Addr × MemList)) :=
  match s.list.find MemList.pPtr (hashPtr wide) p with
  | some none =>
    (List.finRange memHashSize).foldlM
      (fun _ i => seek (fun b => b.pPtr = p) s.list.cells (s.list.head i)) none
  | r => r

/-! ## Memory types -/

/-- `mem_add_type` (lines 40–96); `node` is the result of
    `malloc(sizeof(MemInfo))`. -/
def memAddType (s : MemState) (type : BitVec 32) (name : List Byte) (node : Addr) :
    Option (ℤ × MemState) := do
  let found ← memFindType wide s type
  if type = 0 then some (memResBadType, s)
  else if found.isSome then some (memResExists, s)
  else if node = 0 then some (memResSysCall, s)
  else some (memResOk, { s with
    info := s.info.push MemInfo.type (hashType wide) node
      ⟨type, name.take (memMaxName - 1), none⟩ })

/-- The in-use scan of `mem_del_type` (lines 115–129): is some tracked pointer of
    this type? The `p_info` of every entry is followed until one is. -/
def inUse (s : MemState) (type : BitVec 32) : Option Bool :=
  HashTable.sweep (fun _ => s.list)
    (fun found e => if found then some true
      else (s.info.cells.get e.pInfo).map fun i => i.data.type = type) false

/-- `mem_del_type` (lines 99–155). The node freed is the first of its chain with
    this type, which is the one `mem_find_type` has returned. -/
def memDelType (s : MemState) (type : BitVec 32) : Option (ℤ × MemState) := do
  match ← memFindType wide s type with
  | none => some (memResExists, s)
  | some pInfo =>
    let used ← inUse s type
    if used then some (memResInUse, s)
    else
      let info ← s.info.remove MemInfo.type (hashType wide) type
      some (memResOk, { s with info := info.free pInfo.1 })

/-- `mem_cb_free` (lines 595–612). -/
def memCbFree (s : MemState) (type : BitVec 32) (handler : Option Callback) : Option MemState := do
  match ← memFindType wide s type with
  | none => some s
  | some pInfo =>
    some { s with info := s.info.setData pInfo.1 fun i => { i with cbFree := handler } }

/-! ## Allocation -/

/-- The common end of `mem_alloc` and `mem_calloc`: `node` and `blk` are the
    results of the two allocator calls, `size` is what goes into the list entry and
    `bytes` is the number of bytes of the block, which `MEM_ZEROFILL` clears. -/
def memTrack (s : MemState) (type : BitVec 32) (size : BitVec 32) (bytes : ℕ) (node blk : Addr) :
    Option (Addr × MemState) := do
  match ← memFindType wide s type with
  | none => some (0, s)
  | some pInfo =>
    if node = 0 then some (0, s)
    else if blk = 0 then some (0, s)
    else some (blk, { s with
      list := s.list.push MemList.pPtr (hashPtr wide) node ⟨blk, size, false, pInfo.1⟩
      blocks := s.blocks.set blk (List.replicate bytes 0) })

/-- `mem_alloc` (lines 176–234). -/
def memAlloc (s : MemState) (type size : BitVec 32) (node blk : Addr) : Option (Addr × MemState) :=
  memTrack wide s type size size.toNat node blk

/-- `mem_calloc` (lines 237–295): `calloc(members, size)` gives `members * size`
    zero bytes, of which the `memset` clears the low 32 bits' worth again; the list
    entry records `size`. -/
def memCalloc (s : MemState) (type members size : BitVec 32) (node blk : Addr) :
    Option (Addr × MemState) :=
  memTrack wide s type size (members.toNat * size.toNat) node blk

/-- The outcome of `realloc`. -/
inductive Realloc where
  /-- NULL, and the block is as it was. -/
  | failed
  /-- NULL, and the block is freed: what glibc does for size 0. -/
  | freed
  /-- The block is now at `q`; bytes beyond the old ones are `junk`. -/
  | moved (q : Addr) (junk : ℕ → Byte)

/-- The contents after `realloc` to `n` bytes. -/
def resized (old : List Byte) (junk : ℕ → Byte) (n : ℕ) : List Byte :=
  (List.range n).map fun i => (old[i]?).getD (junk i)

/-- The zero-fill of `mem_realloc` (lines 336–343): bytes `size` and up. -/
def zeroFrom (size : ℕ) (bytes : List Byte) : List Byte :=
  bytes.take size ++ List.replicate (bytes.length - size) 0

/-- The block after `realloc` and the zero-fill. -/
def reallocBytes (old : List Byte) (size newSize : BitVec 32) (junk : ℕ → Byte) : List Byte :=
  let bytes := resized old junk newSize.toNat
  if size < newSize then zeroFrom size.toNat bytes else bytes

/-- The entry moves to the bucket of its new address (lines 345–371). -/
def rehash (list : HashTable memHashSize MemList) (entry : Addr × MemList) (q : Addr) :
    Option (HashTable memHashSize MemList) :=
  if q = entry.2.pPtr then some list
  else (list.remove MemList.pPtr (hashPtr wide) entry.2.pPtr).map
    (HashTable.push MemList.pPtr (hashPtr wide) entry.1 { entry.2 with pPtr := q })

/-- `mem_realloc` (lines 298–383). -/
def memRealloc (s : MemState) (p : Addr) (newSize : BitVec 32) (r : Realloc) :
    Option (Addr × MemState) := do
  match ← memFindPtr wide s p with
  | none => some (0, s)
  | some entry =>
    if entry.2.stored then some (0, s)
    else
      match r with
      | .failed => some (0, s)
      | .freed => some (0, { s with blocks := s.blocks.free p })
      | .moved q junk =>
        let list ← rehash wide s.list entry q
        some (q, { s with
          list := list.setData entry.1 fun e => { e with size := newSize }
          blocks := (s.blocks.free p).set q
            (reallocBytes ((s.blocks.get p).getD []) entry.2.size newSize junk) })

/-- `mem_store` (lines 386–455). -/
def memStore (s : MemState) (p : Addr) (type size : BitVec 32) (node : Addr) :
    Option (ℤ × MemState) := do
  let pInfo ← memFindType wide s type
  let entry ← memFindPtr wide s p
  if p = 0 then some (memResIsNull, s)
  else if entry.isSome then some (memResExists, s)
  else
    match pInfo with
    | none => some (memResExists, s)
    | some pInfo =>
      if node = 0 then some (memResSysCall, s)
      else some (memResOk, { s with
        list := s.list.push MemList.pPtr (hashPtr wide) node ⟨p, size, true, pInfo.1⟩ })

/-! ## Release -/

/-- `memset(p, '\0', size)` on a block. -/
def cleared (size : ℕ) (bytes : List Byte) : List Byte :=
  List.replicate (min size bytes.length) 0 ++ bytes.drop size

/-- Clear `size` bytes at `p` and `free(p)` (lines 502–505). -/
def release (s : MemState) (p : Addr) (size : BitVec 32) : MemState :=
  match s.blocks.get p with
  | none => { s with log := s.log ++ [.wild p size] }
  | some bytes => { s with
      blocks := s.blocks.free p
      log := s.log ++ (if bytes.length < size.toNat then [.wild p size] else []) ++
        [.released p (cleared size.toNat bytes)] }

/-- What `mem_free` does with the memory of an unlinked entry (lines 490–520). -/
def dispose (s : MemState) (p : Addr) (e : MemList) (i : MemInfo) : MemState :=
  match i.cbFree with
  | some cb => { s with log := s.log ++ [.callback cb i.type p e.size] }
  | none => if e.stored then s else release s p e.size

/-- `mem_free` (lines 458–526). -/
def memFree (s : MemState) (p : Addr) : Option MemState := do
  match ← memFindPtr wide s p with
  | none => some s
  | some entry =>
    let list ← s.list.remove MemList.pPtr (hashPtr wide) p
    let i ← s.info.cells.get entry.2.pInfo
    let s := dispose { s with list := list } p entry.2 i.data
    some { s with list := s.list.free entry.1 }

/-- The body of the first loop of `mem_free_all` (lines 547–552). -/
def freeOfType (type : BitVec 32) (s : MemState) (e : MemList) : Option MemState := do
  let i ← s.info.cells.get e.pInfo
  if type = 0 ∨ i.data.type = type then memFree wide s e.pPtr else some s

/-- The body of the second loop of `mem_free_all` (lines 564–567). -/
def delType (s : MemState) (i : MemInfo) : Option MemState :=
  (memDelType wide s i.type).map Prod.snd

/-- `mem_free_all` (lines 529–572). -/
def memFreeAll (s : MemState) (type : BitVec 32) : Option MemState := do
  let s ← HashTable.sweep MemState.list (freeOfType wide type) s
  if type ≠ 0 then some s else HashTable.sweep MemState.info (delType wide) s

/-- `mem_get_size` (lines 575–592). -/
def memGetSize (s : MemState) (type : BitVec 32) : Option (BitVec 32) :=
  HashTable.sweep (fun _ => s.list)
    (fun total e => (s.info.cells.get e.pInfo).map fun i =>
      if i.data.type = type then total + e.size else total) 0

/-! ## Runs -/

/-- A call of the memory manager with the results its allocator calls will have,
    or the program writing into a block it owns. -/
inductive Op where
  | addType (type : BitVec 32) (name : List Byte) (node : Addr)
  | delType (type : BitVec 32)
  | alloc (type size : BitVec 32) (node blk : Addr)
  | calloc (type members size : BitVec 32) (node blk : Addr)
  | realloc (p : Addr) (newSize : BitVec 32) (r : Realloc)
  | store (p : Addr) (type size : BitVec 32) (node : Addr)
  | free (p : Addr)
  | freeAll (type : BitVec 32)
  | cbFree (type : BitVec 32) (handler : Option Callback)
  | write (p : Addr) (bytes : List Byte)

/-- The program fills its block with `bytes`; a block has a fixed length. -/
def fill (s : MemState) (p : Addr) (bytes : List Byte) : MemState :=
  match s.blocks.get p with
  | none => s
  | some old => if old.length = bytes.length then { s with blocks := s.blocks.set p bytes } else s

/-- One call. -/
def step (s : MemState) : Op → Option MemState
  | .addType type name node => (memAddType wide s type name node).map Prod.snd
  | .delType type => (memDelType wide s type).map Prod.snd
  | .alloc type size node blk => (memAlloc wide s type size node blk).map Prod.snd
  | .calloc type members size node blk => (memCalloc wide s type members size node blk).map Prod.snd
  | .realloc p newSize r => (memRealloc wide s p newSize r).map Prod.snd
  | .store p type size node => (memStore wide s p type size node).map Prod.snd
  | .free p => memFree wide s p
  | .freeAll type => memFreeAll wide s type
  | .cbFree type handler => memCbFree wide s type handler
  | .write p bytes => some (fill s p bytes)

/-- A sequence of calls. -/
def run (s : MemState) (ops : List Op) : Option MemState := ops.foldlM (step wide) s

end CompatSuva.Mem
