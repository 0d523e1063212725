/-
**The LRU cache of `ComponentsW` (`cache.cpp`).**

A shard keeps its entries in a hash table and in one of two lists: `in_use_` for those that a caller has a
handle of, and `lru_` for the others, the least recently used one first.  What undefined behaviour or a failed
assertion would follow on is `none`.
-/

import BackendProgramming.LruTable
import BackendProgramming.Lts

set_option autoImplicit false

namespace ComponentsW

open CText ByteMem

structure Store where
  heap : Heap := fun _ => none
  made : Addr := 0
  junk : Mem := fun _ => 0
  deleted : List (Slice × UInt64) := []

def Store.set (st : Store) (a : Addr) (e : LRUHandle) : Store :=
  { st with heap := Function.update st.heap a (some e) }

def Store.free (st : Store) (a : Addr) (e : LRUHandle) : Store :=
  { st with heap := Function.update st.heap a none, deleted := st.deleted ++ [(e.key, e.value)] }

structure LRUCache where
  capacity : UInt64
  usage : UInt64 := 0
  lru : List Addr := []
  inUse : List Addr := []
  table : HandleTable := {}

namespace LRUCache

def lruRemove (c : LRUCache) (e : Addr) : LRUCache :=
  { c with lru := c.lru.erase e, inUse := c.inUse.erase e }

def appendLru (c : LRUCache) (e : Addr) : LRUCache := { c with lru := c.lru ++ [e] }

def appendInUse (c : LRUCache) (e : Addr) : LRUCache := { c with inUse := c.inUse ++ [e] }

def ref (c : LRUCache) (st : Store) (a : Addr) : Option (Store × LRUCache) := do
  let e ← st.heap a
  let c := if e.refs = 1 ∧ e.inCache then (c.lruRemove a).appendInUse a else c
  some (st.set a { e with refs := e.refs + 1 }, c)

def unref (c : LRUCache) (st : Store) (a : Addr) : Option (Store × LRUCache) := do
  let e ← st.heap a
  if e.refs = 0 then none
  else
    let refs := e.refs - 1
    if refs = 0 then
      if e.inCache then none else some (st.free a e, c)
    else if e.inCache ∧ refs = 1 then
      some (st.set a { e with refs := refs }, (c.lruRemove a).appendLru a)
    else some (st.set a { e with refs := refs }, c)

def finishErase (c : LRUCache) (st : Store) : Option Addr → Option (Store × LRUCache)
  | none => some (st, c)
  | some a => do
    let e ← st.heap a
    if e.inCache then
      let c := { c.lruRemove a with usage := c.usage - e.charge }
      c.unref (st.set a { e with inCache := false }) a
    else none

def evict (c : LRUCache) (st : Store) (old : Addr) : Option (Store × LRUCache) := do
  let e ← st.heap old
  if e.refs = 1 then
    let (erased, table) ← c.table.remove st.heap e.key e.hash
    if erased.isSome then finishErase { c with table := table } st erased else none
  else none

def evictLoop (more : LRUCache → Bool) : ℕ → LRUCache → Store → Option (Store × LRUCache)
  | 0, _, _ => none
  | fuel + 1, c, st =>
    match c.lru with
    | [] => some (st, c)
    | old :: _ =>
      if more c then (c.evict st old).bind fun x => evictLoop more fuel x.2 x.1 else some (st, c)

def place (c : LRUCache) (st : Store) (a : Addr) (e : LRUHandle) : Option (Store × LRUCache) := do
  let st := st.set a { e with refs := e.refs + 1, inCache := true }
  let c := { c.appendInUse a with usage := c.usage + e.charge }
  let (old, table) ← c.table.insert st.heap a
  finishErase { c with table := table } st old

def enter (c : LRUCache) (st : Store) (a : Addr) (e : LRUHandle) : Option (Store × LRUCache) :=
  if 0 < c.capacity then c.place st a e else some (st.set a e, c)

def insert (c : LRUCache) (st : Store) (key : Bytes) (hash : UInt32) (value charge : UInt64) :
    Option (Addr × Store × LRUCache) := do
  let e ← newHandle st.junk key hash value charge
  let (st', c) ← c.enter { st with made := st.made + 1 } st.made e
  let x ← evictLoop (fun c => c.capacity < c.usage) (c.lru.length + 1) c st'
  some (st.made, x)

def lookup (c : LRUCache) (st : Store) (key : Bytes) (hash : UInt32) :
    Option (Option Addr × Store × LRUCache) := do
  let e ← c.table.lookup st.heap (Slice.of key) hash
  match e with
  | none => some (none, st, c)
  | some a => (c.ref st a).map fun x => (some a, x)

def release (c : LRUCache) (st : Store) (handle : Addr) : Option (Store × LRUCache) := c.unref st handle

def erase (c : LRUCache) (st : Store) (key : Bytes) (hash : UInt32) : Option (Store × LRUCache) := do
  let (old, table) ← c.table.remove st.heap (Slice.of key) hash
  finishErase { c with table := table } st old

def prune (c : LRUCache) (st : Store) : Option (Store × LRUCache) :=
  evictLoop (fun _ => true) (c.lru.length + 1) c st

end LRUCache

/-! ### The shards -/

def kNumShards : ℕ := 16

def shardOf (hash : UInt32) : Fin kNumShards :=
  ⟨(hash >>> 28).toNat, by
    rw [UInt32.toNat_shiftRight, Nat.shiftRight_eq_div_pow]
    have := hash.toNat_lt
    exact Nat.div_lt_of_lt_mul (by simpa [kNumShards] using this)⟩

structure ShardedLRUCache where
  store : Store
  shard : Fin kNumShards → LRUCache

namespace ShardedLRUCache

def perShard (capacity : UInt64) : UInt64 := (capacity + 15) / 16

def new (capacity : UInt64) (junk : Mem) : ShardedLRUCache where
  store := { junk := junk }
  shard := fun _ => { capacity := perShard capacity }

def put (c : ShardedLRUCache) (i : Fin kNumShards) (x : Store × LRUCache) : ShardedLRUCache where
  store := x.1
  shard := Function.update c.shard i x.2

def insert (c : ShardedLRUCache) (key : Bytes) (value charge : UInt64) : Option (Addr × ShardedLRUCache) :=
  let hash := hashSlice key
  ((c.shard (shardOf hash)).insert c.store key hash value charge).map fun x =>
    (x.1, c.put (shardOf hash) x.2)

def lookup (c : ShardedLRUCache) (key : Bytes) : Option (Option Addr × ShardedLRUCache) :=
  let hash := hashSlice key
  ((c.shard (shardOf hash)).lookup c.store key hash).map fun x => (x.1, c.put (shardOf hash) x.2)

def release (c : ShardedLRUCache) (handle : Addr) : Option ShardedLRUCache := do
  let e ← c.store.heap handle
  ((c.shard (shardOf e.hash)).release c.store handle).map (c.put (shardOf e.hash))

def erase (c : ShardedLRUCache) (key : Bytes) : Option ShardedLRUCache :=
  let hash := hashSlice key
  ((c.shard (shardOf hash)).erase c.store key hash).map (c.put (shardOf hash))

def value (c : ShardedLRUCache) (handle : Addr) : Option UInt64 := (c.store.heap handle).map LRUHandle.value

def pruneLoop (c : ShardedLRUCache) : List (Fin kNumShards) → Option ShardedLRUCache
  | [] => some c
  | i :: is => ((c.shard i).prune c.store).bind fun x => (c.put i x).pruneLoop is

def prune (c : ShardedLRUCache) : Option ShardedLRUCache := c.pruneLoop (List.finRange kNumShards)

end ShardedLRUCache

/-! ### The system -/

structure CacheSystem where
  cache : ShardedLRUCache
  held : List Addr := []

inductive CacheEvent where
  | insert (key : Bytes) (value charge : UInt64)
  | lookup (key : Bytes)
  | release (handle : Addr)
  | erase (key : Bytes)
  | prune
  deriving DecidableEq

def CacheSystem.step (s : CacheSystem) : CacheEvent → Option CacheSystem
  | .insert key value charge => (s.cache.insert key value charge).map fun x => ⟨x.2, x.1 :: s.held⟩
  | .lookup key => (s.cache.lookup key).map fun x => ⟨x.2, x.1.toList ++ s.held⟩
  | .release handle => (s.cache.release handle).map fun c => ⟨c, s.held.erase handle⟩
  | .erase key => (s.cache.erase key).map fun c => ⟨c, s.held⟩
  | .prune => s.cache.prune.map fun c => ⟨c, s.held⟩

def CacheSystem.new (capacity : UInt64) (junk : Mem) : CacheSystem := ⟨.new capacity junk, []⟩

end ComponentsW
