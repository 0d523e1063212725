/-
**The pager of `sqlite_demo` (`pager.c`, `pcache.c`, `pcache1.c`).**

A page that is referenced is found in a hash table by its number; any other is read from the file into a slot,
the one that was released last or a new one.  A commit writes the pages that will be modified to the file.
`sz_extra` is zero, and the bucket array starts empty.
-/

import BackendProgramming.CText
import BackendProgramming.PosixFile
import BackendProgramming.Chains
import BackendProgramming.Lts

set_option autoImplicit false

namespace SqliteDemo

open CText

def sqlDefaultPageSize : ℕ := 2048

def sqlDatabaseHeaderSize : ℕ := 0

def maxPagesInCache : ℕ := 4096

def nhash : ℕ := 256

inductive SqlCode where
  | ok
  | error
  | nomem
  deriving DecidableEq, Repr

structure PageData where
  bytes : Bytes
  length_eq : bytes.length = sqlDefaultPageSize
  deriving DecidableEq

def PageData.zero : PageData := ⟨List.replicate sqlDefaultPageSize 0, List.length_replicate⟩

structure DbPage where
  content : PageData := .zero
  key : ℕ := 0
  pgno : ℕ := 0
  dirty : Bool := false
  nref : ℕ := 0

structure Pager where
  file : Bytes
  pages : ℕ → DbPage := fun _ => {}
  made : ℕ := 0
  aphash : List (List ℕ) := List.replicate nhash []
  npage : ℕ := 0
  lru : List ℕ := []
  pdirty : List ℕ := []

def pageOffset (pgno : ℕ) : ℕ := sqlDatabaseHeaderSize + (pgno - 1) * sqlDefaultPageSize

def osRead (file : Bytes) (data : PageData) (offset : ℕ) : PageData :=
  ⟨PosixFile.read file offset data.bytes, by rw [PosixFile.length_read, data.length_eq]⟩

namespace Pager

def modify (s : Pager) (p : ℕ) (f : DbPage → DbPage) : Pager :=
  { s with pages := Function.update s.pages p (f (s.pages p)) }

/-! ### The plug-in cache -/

def pcache1Get (s : Pager) (key : ℕ) : Option ℕ :=
  (s.aphash[key % nhash]?.getD []).find? fun p => (s.pages p).key == key

def pin (s : Pager) (p key : ℕ) : Pager :=
  { s.modify p fun d => { d with key := key } with
    aphash := Chains.push s.aphash (key % nhash) p
    npage := s.npage + 1 }

def pcache1Fetch (s : Pager) (key : ℕ) : Option (ℕ × Pager) :=
  match s.pcache1Get key with
  | some p => some (p, s)
  | none =>
    match s.lru with
    | p :: lru => some (p, { s with lru := lru }.pin p key)
    | [] =>
      if maxPagesInCache ≤ s.npage then none
      else some (s.made, ({ s with made := s.made + 1 }.modify s.made fun _ => {}).pin s.made key)

def pcache1RemoveFromHash (s : Pager) (p : ℕ) : Option Pager :=
  let h := (s.pages p).key % nhash
  let chain := s.aphash[h]?.getD []
  if chain.contains p then some { s with aphash := s.aphash.set h (chain.erase p), npage := s.npage - 1 } else none

def pcache1Unpin (s : Pager) (p : ℕ) : Option Pager :=
  (s.pcache1RemoveFromHash p).map fun s => { s with lru := p :: s.lru }

/-! ### The cache -/

def addRef (s : Pager) (p : ℕ) : Option Pager :=
  if (s.pages p).nref + 1 < 2 ^ 31 then some (s.modify p fun d => { d with nref := d.nref + 1 }) else none

def pcacheGet (s : Pager) (pgno : ℕ) : Option (Option (ℕ × Pager)) :=
  match s.pcache1Get pgno with
  | none => some none
  | some p => (s.addRef p).map fun s => some (p, s)

def pcacheFetch (s : Pager) (pgno : ℕ) : Option (Option (ℕ × Pager)) :=
  match s.pcache1Fetch pgno with
  | none => some none
  | some (p, s) =>
    ((s.modify p fun d => { d with pgno := pgno, dirty := false }).addRef p).map fun s => some (p, s)

def pcacheRelease (s : Pager) (p : ℕ) : Option Pager :=
  if (s.pages p).nref = 0 then none
  else
    let s := s.modify p fun d => { d with nref := d.nref - 1 }
    if (s.pages p).nref = 0 then
      if (s.pages p).dirty then none else s.pcache1Unpin p
    else some s

def pcacheMakeDirty (s : Pager) (p : ℕ) : Option Pager :=
  if (s.pages p).nref = 0 then none
  else if (s.pages p).dirty then some s
  else some { s.modify p fun d => { d with dirty := true } with pdirty := p :: s.pdirty }

def pcacheMakeClean (s : Pager) (p : ℕ) : Pager :=
  if (s.pages p).dirty then
    { s.modify p fun d => { d with dirty := false } with pdirty := s.pdirty.erase p }
  else s

/-! ### The pager -/

def readPage (s : Pager) (p pgno : ℕ) : Pager :=
  s.modify p fun d => { d with
    pgno := pgno
    dirty := false
    content := osRead s.file d.content (pageOffset pgno) }

def pagerGet (s : Pager) (pgno : ℕ) : Option (SqlCode × Option ℕ × Pager) := do
  let found ← s.pcacheGet pgno
  match found with
  | some (p, s) => some (.ok, some p, s)
  | none =>
    let fetched ← s.pcacheFetch pgno
    match fetched with
    | none => some (.nomem, none, s)
    | some (p, s) => some (.error, some p, s.readPage p pgno)

def pagerUnref (s : Pager) (p : ℕ) : Option Pager := s.pcacheRelease p

def pagerWrite (s : Pager) (p : ℕ) : Option Pager := s.pcacheMakeDirty p

def pagerWritePage (s : Pager) (p : ℕ) : Pager :=
  { s with file := PosixFile.write s.file (pageOffset (s.pages p).pgno) (s.pages p).content.bytes }

def pagerCommit (s : Pager) : Pager :=
  s.pdirty.foldl (fun s p => (s.pagerWritePage p).pcacheMakeClean p) s

end Pager

/-! ### The system -/

structure PagerSystem where
  pager : Pager
  image : ℕ → PageData

inductive PagerEvent where
  | get (pgno : ℕ)
  | write (page : ℕ)
  | modify (page : ℕ) (data : PageData)
  | commit
  | unref (page : ℕ)
  deriving DecidableEq

def PagerSystem.step (s : PagerSystem) : PagerEvent → Option PagerSystem
  | .get pgno => (s.pager.pagerGet pgno).map fun x => { s with pager := x.2.2 }
  | .write page => (s.pager.pagerWrite page).map fun pager => { s with pager := pager }
  | .modify page data => some
      { pager := s.pager.modify page fun d => { d with content := data }
        image := Function.update s.image (s.pager.pages page).pgno data }
  | .commit => some { s with pager := s.pager.pagerCommit }
  | .unref page => (s.pager.pagerUnref page).map fun pager => { s with pager := pager }

def filePage (file : Bytes) (pgno : ℕ) : PageData :=
  ⟨PosixFile.window file (pageOffset pgno) sqlDefaultPageSize, PosixFile.length_window⟩

def PagerSystem.pagerOpen (file : Bytes) : PagerSystem where
  pager := { file := file }
  image := filePage file

end SqliteDemo
