/-
**Lookup in a hash table that grows (`memcached_hashtable.c`).**

While the table grows, the buckets below `expand_bucket` are in the new table and the others in the old one.
An event is what is done under the locks.  The numbers of buckets are kept in an `int`, which is too small
from 32 bits of the hash on.
-/

import BackendProgramming.CText
import BackendProgramming.KeyedChains
import BackendProgramming.Lts

set_option autoImplicit false

namespace Memcached

open CText KeyedChains Function List Option

/-! ### The table -/

structure Item where
  addr : ℕ
  key : Bytes
  short : key.length ≤ 250
  deriving DecidableEq

def Item.nkey (it : Item) : UInt8 := UInt8.ofNat it.key.length

structure Assoc where
  primaryHashtable : ℕ → List Item := fun _ => []
  oldHashtable : ℕ → List Item := fun _ => []
  expanding : Bool := false
  expandBucket : ℤ := -1
  hashpower : ℕ

def sameKey (key : Bytes) (it : Item) : Bool :=
  key.length == it.nkey.toNat && it.key.take key.length == key

namespace Assoc

def oldBucket (s : Assoc) (hv : UInt32) : ℕ := hv.toNat % 2 ^ (s.hashpower - 1)

def inOld (s : Assoc) (hv : UInt32) : Bool :=
  s.expanding && decide (s.expandBucket % 2 ^ 32 ≤ s.oldBucket hv)

def chain (s : Assoc) (hv : UInt32) : List Item :=
  if s.inOld hv then s.oldHashtable (s.oldBucket hv) else s.primaryHashtable (hv.toNat % 2 ^ s.hashpower)

def setChain (s : Assoc) (hv : UInt32) (l : List Item) : Assoc :=
  if s.inOld hv then { s with oldHashtable := update s.oldHashtable (s.oldBucket hv) l }
  else { s with primaryHashtable := update s.primaryHashtable (hv.toNat % 2 ^ s.hashpower) l }

def assocInsert (s : Assoc) (it : Item) (hv : UInt32) : Assoc := s.setChain hv (it :: s.chain hv)

def assocFind (s : Assoc) (key : Bytes) (hv : UInt32) : Option Item := (s.chain hv).find? (sameKey key)

def assocDelete (s : Assoc) (key : Bytes) (hv : UInt32) : Option Assoc :=
  if (s.chain hv).any (sameKey key) then some (s.setChain hv ((s.chain hv).eraseP (sameKey key))) else none

def assocExpand (s : Assoc) (calloc : Bool) : Assoc :=
  if calloc then
    { s with
      oldHashtable := s.primaryHashtable
      primaryHashtable := fun _ => []
      hashpower := s.hashpower + 1
      expanding := true
      expandBucket := 0 }
  else { s with oldHashtable := s.primaryHashtable }

def moveItems (hash : Bytes → UInt32) (hashpower : ℕ) :
    List Item → (ℕ → List Item) → Option (ℕ → List Item)
  | [], primary => some primary
  | it :: rest, primary =>
    let bucket := (hash it.key).toNat % 2 ^ hashpower
    if 2 ^ 31 ≤ bucket then none
    else moveItems hash hashpower rest (update primary bucket (it :: primary bucket))

def migrate (hash : Bytes → UInt32) (s : Assoc) : Option Assoc :=
  (moveItems hash s.hashpower (s.oldHashtable s.expandBucket.toNat) s.primaryHashtable).bind fun primary =>
    if 2 ^ 31 ≤ s.expandBucket + 1 then none
    else some { s with
      primaryHashtable := primary
      oldHashtable := update s.oldHashtable s.expandBucket.toNat []
      expandBucket := s.expandBucket + 1
      expanding := s.expandBucket + 1 ≠ 2 ^ (s.hashpower - 1) }

end Assoc

/-! ### The system -/

inductive Event where
  | insert (it : Item)
  | find (key : Bytes)
  | delete (key : Bytes)
  | expand (calloc : Bool)
  | migrate

structure System where
  assoc : Assoc
  present : Bytes → Option Item := fun _ => none

variable (hash : Bytes → UInt32)

def System.step (s : System) : Event → Option System
  | .insert it => some ⟨s.assoc.assocInsert it (hash it.key), update s.present it.key (some it)⟩
  | .find _ => some s
  | .delete key =>
    (s.assoc.assocDelete key (hash key)).map fun a => ⟨a, update s.present key none⟩
  | .expand calloc => some { s with assoc := s.assoc.assocExpand calloc }
  | .migrate => (s.assoc.migrate hash).map fun a => { s with assoc := a }

def System.init (hashpower : ℕ) : System := ⟨{ hashpower := hashpower }, fun _ => none⟩

def Legal (s : System) : Event → Prop
  | .insert it => s.present it.key = none
  | .find _ => True
  | .delete key => s.present key ≠ none
  | .expand _ => s.assoc.expanding = false
  | .migrate => s.assoc.expanding = true

instance (s : System) (e : Event) : Decidable (Legal s e) := by
  cases e <;> unfold Legal <;> infer_instance

def Right (s : System) (e : Event) : Prop :=
  (∃ s', s.step hash e = some s') ∧
    ∀ key, e = .find key → s.assoc.assocFind key (hash key) = s.present key

def InInt (s : System) (e : Event) : Prop :=
  e = .migrate → s.assoc.expandBucket + 1 < 2 ^ 31 ∧
    ∀ it ∈ s.assoc.oldHashtable s.assoc.expandBucket.toNat,
      (hash it.key).toNat % 2 ^ s.assoc.hashpower < 2 ^ 31

instance (s : System) (e : Event) : Decidable (InInt hash s e) :=
  match e with
  | .migrate => decidable_of_iff _ (forall_prop_of_true rfl).symm
  | .insert _ | .find _ | .delete _ | .expand _ => isTrue fun h => nomatch h

/-! ### The invariant -/

theorem sameKey_eq (key : Bytes) : sameKey key = fun it => decide (it.key = key) := by
  funext it
  have hshort := it.short
  have hnkey : it.nkey.toNat = it.key.length := by
    rw [Item.nkey, UInt8.toNat_ofNat']
    omega
  rw [Bool.eq_iff_iff, decide_eq_true_eq, sameKey, Bool.and_eq_true, beq_iff_eq, beq_iff_eq, hnkey]
  constructor
  · rintro ⟨hlen, htake⟩
    rwa [hlen, take_length] at htake
  · rintro rfl
    exact ⟨rfl, take_length⟩

variable {hash}

structure Assoc.Placed (hash : Bytes → UInt32) (s : Assoc) : Prop where
  primary : ∀ b, ∀ it ∈ s.primaryHashtable b, (hash it.key).toNat % 2 ^ s.hashpower = b ∧
    (s.expanding = true → s.oldBucket (hash it.key) < s.expandBucket)
  old : s.expanding = true → ∀ b, ∀ it ∈ s.oldHashtable b, s.oldBucket (hash it.key) = b
  bucket : s.expanding = true → 1 ≤ s.hashpower ∧ 0 ≤ s.expandBucket ∧ s.expandBucket < 2 ^ 31 ∧
    s.expandBucket < 2 ^ (s.hashpower - 1)

structure System.Sound (hash : Bytes → UInt32) (s : System) : Prop extends s.assoc.Placed hash where
  chain : ∀ k, pick Item.key k (s.assoc.chain (hash k)) = (s.present k).toList

namespace Assoc

variable {s : Assoc}

theorem Placed.inOld_iff (h : s.Placed hash) (hv : UInt32) :
    s.inOld hv = true ↔ s.expanding = true ∧ s.expandBucket ≤ s.oldBucket hv := by
  rw [inOld, Bool.and_eq_true, decide_eq_true_eq]
  refine and_congr_right fun hexp => ?_
  obtain ⟨-, hpos, hlt, -⟩ := h.bucket hexp
  rw [Int.emod_eq_of_lt hpos (by omega)]

theorem chain_setChain_old {hv : UInt32} (hold : s.inOld hv = true) (hv' : UInt32) (l : List Item) :
    (s.setChain hv l).chain hv' =
      if s.inOld hv' then update s.oldHashtable (s.oldBucket hv) l (s.oldBucket hv')
      else s.primaryHashtable (hv'.toNat % 2 ^ s.hashpower) := by
  rw [setChain, if_pos hold]
  rfl

theorem chain_setChain_new {hv : UInt32} (hold : ¬s.inOld hv = true) (hv' : UInt32) (l : List Item) :
    (s.setChain hv l).chain hv' =
      if s.inOld hv' then s.oldHashtable (s.oldBucket hv')
      else update s.primaryHashtable (hv.toNat % 2 ^ s.hashpower) l (hv'.toNat % 2 ^ s.hashpower) := by
  rw [setChain, if_neg hold]
  rfl

theorem chain_setChain_self (s : Assoc) (hv : UInt32) (l : List Item) : (s.setChain hv l).chain hv = l := by
  by_cases hold : s.inOld hv = true
  · rw [chain_setChain_old hold, if_pos hold, update_self]
  · rw [chain_setChain_new hold, if_neg hold, update_self]

theorem chain_setChain (s : Assoc) (hv hv' : UInt32) (l : List Item) :
    (s.setChain hv l).chain hv' = l ∧ s.chain hv' = s.chain hv ∨ (s.setChain hv l).chain hv' = s.chain hv' := by
  by_cases hold : s.inOld hv = true <;> by_cases hold' : s.inOld hv' = true
  · rw [chain_setChain_old hold, chain, chain, if_pos hold, if_pos hold', if_pos hold']
    by_cases hb : s.oldBucket hv' = s.oldBucket hv
    · rw [hb]
      exact .inl ⟨update_self .., rfl⟩
    · exact .inr (update_of_ne hb ..)
  · rw [chain_setChain_old hold, chain, if_neg hold', if_neg hold']
    exact .inr rfl
  · rw [chain_setChain_new hold, chain, if_pos hold', if_pos hold']
    exact .inr rfl
  · rw [chain_setChain_new hold, chain, chain, if_neg hold, if_neg hold', if_neg hold']
    by_cases hb : hv'.toNat % 2 ^ s.hashpower = hv.toNat % 2 ^ s.hashpower
    · rw [hb]
      exact .inl ⟨update_self .., rfl⟩
    · exact .inr (update_of_ne hb ..)

theorem Placed.setChain (h : s.Placed hash) (hv : UInt32) {l : List Item}
    (hl : ∀ it ∈ l, hash it.key = hv ∨ it ∈ s.chain hv) : (s.setChain hv l).Placed hash := by
  rw [Assoc.setChain]
  split
  · next hold =>
    refine ⟨h.primary, fun hexp b it hit => ?_, h.bucket⟩
    dsimp only at hit
    by_cases hb : b = s.oldBucket hv
    · subst hb
      rw [update_self] at hit
      rcases hl it hit with hhash | hit
      · exact congrArg s.oldBucket hhash
      · rw [chain, if_pos hold] at hit
        exact h.old hexp _ it hit
    · rw [update_of_ne hb] at hit
      exact h.old hexp b it hit
  · next hold =>
    refine ⟨fun b it hit => ?_, h.old, h.bucket⟩
    dsimp only at hit
    by_cases hb : b = hv.toNat % 2 ^ s.hashpower
    · subst hb
      rw [update_self] at hit
      rcases hl it hit with hhash | hit
      · rw [hhash]
        refine ⟨rfl, fun hexp => ?_⟩
        have := mt (fun hle => (h.inOld_iff hv).2 ⟨hexp, hle⟩) hold
        exact not_le.1 this
      · rw [chain, if_neg hold] at hit
        exact h.primary _ it hit
    · rw [update_of_ne hb] at hit
      exact h.primary b it hit

theorem moveItems_eq {hashpower : ℕ} (l : List Item) (primary : ℕ → List Item) :
    (∀ it ∈ l, (hash it.key).toNat % 2 ^ hashpower < 2 ^ 31) →
      moveItems hash hashpower l primary =
        some fun b => (l.filter fun it => (hash it.key).toNat % 2 ^ hashpower = b).reverse ++ primary b := by
  induction l generalizing primary with
  | nil => exact fun _ => rfl
  | cons it l ih =>
    intro hl
    obtain ⟨hit, hl⟩ := forall_mem_cons.1 hl
    rw [moveItems, if_neg (not_le.2 hit), ih _ hl]
    congr 1
    funext b
    by_cases hb : (hash it.key).toNat % 2 ^ hashpower = b
    · subst hb
      rw [update_self, filter_cons_of_pos (by simp), reverse_cons, append_assoc]
      rfl
    · rw [update_of_ne (Ne.symm hb), filter_cons_of_neg (by simpa using hb)]

theorem exists_bucket_of_moveItems {hashpower : ℕ} (l : List Item) (primary primary' : ℕ → List Item)
    (h : moveItems hash hashpower l primary = some primary') :
    ∀ it ∈ l, (hash it.key).toNat % 2 ^ hashpower < 2 ^ 31 := by
  induction l generalizing primary with
  | nil => exact forall_mem_nil _
  | cons it l ih =>
    rw [moveItems] at h
    split at h
    · cases h
    · next hit => exact forall_mem_cons.2 ⟨not_le.1 hit, ih _ h⟩

end Assoc

namespace System.Sound

variable {s : System}

theorem setChain (h : s.Sound hash) (k : Bytes) {l : List Item} {v : Option Item}
    (hl : ∀ it ∈ l, hash it.key = hash k ∨ it ∈ s.assoc.chain (hash k)) (hself : pick Item.key k l = v.toList)
    (hne : ∀ k' ≠ k, pick Item.key k' l = pick Item.key k' (s.assoc.chain (hash k))) :
    System.Sound hash ⟨s.assoc.setChain (hash k) l, update s.present k v⟩ := by
  refine ⟨h.toPlaced.setChain _ hl, fun k' => ?_⟩
  dsimp only
  by_cases hk : k' = k
  · subst hk
    rw [update_self]
    exact (congrArg _ (Assoc.chain_setChain_self ..)).trans hself
  · rw [update_of_ne hk]
    rcases s.assoc.chain_setChain (hash k) (hash k') l with ⟨hl, hsame⟩ | hsame
    · rw [hl, hne k' hk, ← hsame]
      exact h.chain k'
    · rw [hsame]
      exact h.chain k'

theorem assocFind (h : s.Sound hash) (key : Bytes) : s.assoc.assocFind key (hash key) = s.present key := by
  rw [Assoc.assocFind, sameKey_eq, find_eq, h.chain, head?_toList]

theorem insert (h : s.Sound hash) {it : Item} (hnone : s.present it.key = none) :
    System.Sound hash
      ⟨s.assoc.assocInsert it (hash it.key), update s.present it.key (some it)⟩ := by
  refine h.setChain it.key (fun it' hit' => ?_) ?_ fun k hk => pick_cons_ne (Ne.symm hk) _
  · rcases mem_cons.1 hit' with rfl | hit'
    · exact .inl rfl
    · exact .inr hit'
  · rw [pick_cons_self rfl, h.chain, hnone]
    rfl

theorem delete (h : s.Sound hash) {key : Bytes} (hsome : s.present key ≠ none) :
    ∃ a, s.assoc.assocDelete key (hash key) = some a ∧
      System.Sound hash ⟨a, update s.present key none⟩ := by
  obtain ⟨it, hit⟩ := ne_none_iff_exists'.1 hsome
  have hchain := h.chain key
  rw [hit] at hchain
  refine ⟨_, if_pos ?_, h.setChain key (fun it hit => .inr (eraseP_subset hit)) ?_ fun k hk => ?_⟩
  · rw [sameKey_eq]
    refine any_eq_true.2 (find?_isSome.1 ?_)
    rw [find_eq, hchain]
    rfl
  · rw [sameKey_eq, pick_erase_self, hchain]
    rfl
  · rw [sameKey_eq]
    exact pick_erase_ne hk _

theorem expand (h : s.Sound hash) (hexp : s.assoc.expanding = false) (calloc : Bool) :
    System.Sound hash { s with assoc := s.assoc.assocExpand calloc } := by
  cases calloc with
  | false =>
    refine ⟨⟨h.primary, fun h' => ?_, fun h' => ?_⟩, fun k => ?_⟩
    · cases hexp.symm.trans h'
    · cases hexp.symm.trans h'
    · have hold : ¬s.assoc.inOld (hash k) = true := by simp [Assoc.inOld, hexp]
      have := h.chain k
      rw [Assoc.chain, if_neg hold] at this
      exact (congrArg _ (if_neg hold)).trans this
  | true =>
    refine ⟨⟨fun b it hit => (not_mem_nil hit).elim, fun _ b it hit => (h.primary b it hit).1, fun _ =>
      ⟨Nat.le_add_left .., le_rfl, show (0 : ℤ) < 2 ^ 31 by decide, show (0 : ℤ) < _ by positivity⟩⟩, fun k => ?_⟩
    have hold : ¬s.assoc.inOld (hash k) = true := by simp [Assoc.inOld, hexp]
    have := h.chain k
    rw [Assoc.chain, if_neg hold] at this
    refine (congrArg _ (if_pos ?_)).trans this
    simp [Assoc.inOld, Assoc.assocExpand]

theorem migrate (h : s.Sound hash) (hexp : s.assoc.expanding = true) (hint : InInt hash s .migrate) :
    ∃ a, s.assoc.migrate hash = some a ∧ System.Sound hash { s with assoc := a } := by
  obtain ⟨hnext, hitems⟩ := hint rfl
  obtain ⟨hpower, hpos, hint, hlt⟩ := h.bucket hexp
  obtain ⟨eb, heb⟩ := Int.eq_ofNat_of_zero_le hpos
  have hmoved := h.old hexp eb
  rw [heb] at hnext hitems hlt
  rw [Assoc.migrate, heb, Assoc.moveItems_eq _ _ hitems, bind_some, if_neg (not_le.2 hnext)]
  rw [Int.toNat_natCast]
  have hplaced : Assoc.Placed hash
      { s.assoc with
        primaryHashtable := fun b => ((s.assoc.oldHashtable eb).filter fun it =>
          (hash it.key).toNat % 2 ^ s.assoc.hashpower = b).reverse ++ s.assoc.primaryHashtable b
        oldHashtable := update s.assoc.oldHashtable eb []
        expandBucket := eb + 1
        expanding := decide ((eb : ℤ) + 1 ≠ 2 ^ (s.assoc.hashpower - 1)) } := by
    refine ⟨fun b it hit => ?_, fun hexp' b it hit => ?_, fun hexp' => ⟨hpower, ?_, hnext, ?_⟩⟩
    · rcases mem_append.1 hit with hit | hit
      · obtain ⟨hit, hb⟩ := mem_filter.1 (mem_reverse.1 hit)
        refine ⟨of_decide_eq_true hb, fun _ => ?_⟩
        have := hmoved it hit
        exact Int.lt_add_one_of_le (Int.ofNat_le.2 this.le)
      · obtain ⟨hb, hlt⟩ := h.primary b it hit
        exact ⟨hb, fun _ => lt_of_lt_of_le (heb ▸ hlt hexp) (Int.le.intro 1 rfl)⟩
    · dsimp only at hit
      by_cases hb : b = eb
      · subst hb
        rw [update_self] at hit
        exact (not_mem_nil hit).elim
      · rw [update_of_ne hb] at hit
        exact h.old hexp b it hit
    · exact Int.le_add_one (Int.natCast_nonneg eb)
    · exact lt_of_le_of_ne hlt (of_decide_eq_true hexp')
  refine ⟨_, rfl, hplaced, fun k => ?_⟩
  have hchain := h.chain k
  have hob : ((s.assoc.oldBucket (hash k) : ℕ) : ℤ) < 2 ^ (s.assoc.hashpower - 1) := by
    exact_mod_cast Nat.mod_lt _ (by positivity)
  have hnot (hle : s.assoc.oldBucket (hash k) ≤ eb) {p : Prop} :
      ¬(p ∧ (eb : ℤ) + 1 ≤ s.assoc.oldBucket (hash k)) := by omega
  -- the bucket of the key has been moved, is moved now or is still to be moved
  rcases lt_trichotomy (s.assoc.oldBucket (hash k)) eb with hb | hb | hb
  · rw [Assoc.chain, if_neg (mt (h.toPlaced.inOld_iff _).1 (by omega))] at hchain
    rw [Assoc.chain, if_neg (mt (hplaced.inOld_iff _).1 (hnot hb.le)), pick_append, pick_reverse,
      pick_filter (by rintro a rfl; exact decide_eq_true rfl), pick_eq_nil, reverse_nil]
    · exact hchain
    · rintro it hit rfl
      exact hb.ne (hmoved it hit)
  · rw [Assoc.chain, if_pos ((h.toPlaced.inOld_iff _).2 ⟨hexp, by omega⟩), hb] at hchain
    rw [Assoc.chain, if_neg (mt (hplaced.inOld_iff _).1 (hnot hb.le)), pick_append, pick_reverse,
      pick_filter (by rintro a rfl; exact decide_eq_true rfl), hchain, pick_eq_nil, append_nil]
    · cases s.present k <;> rfl
    · rintro it hit rfl
      have := (h.primary _ it hit).2 hexp
      omega
  · rw [Assoc.chain, if_pos ((h.toPlaced.inOld_iff _).2 ⟨hexp, by omega⟩)] at hchain
    rw [Assoc.chain, if_pos ((hplaced.inOld_iff _).2 ⟨decide_eq_true (by omega), ?_⟩)]
    · exact (congrArg _ (update_of_ne hb.ne' ..)).trans hchain
    · exact Int.ofNat_le.2 hb

end System.Sound

theorem System.Sound.step {s : System} {e : Event} (h : s.Sound hash) (hlegal : Legal s e) (hint : InInt hash s e) :
    ∃ s', s.step hash e = some s' ∧ s'.Sound hash := by
  cases e with
  | insert it => exact ⟨_, rfl, h.insert hlegal⟩
  | find key => exact ⟨_, rfl, h⟩
  | delete key =>
    obtain ⟨a, ha, hs⟩ := h.delete hlegal
    exact ⟨_, congrArg (Option.map _) ha, hs⟩
  | expand calloc => exact ⟨_, rfl, h.expand hlegal calloc⟩
  | migrate =>
    obtain ⟨a, ha, hs⟩ := h.migrate hlegal hint
    exact ⟨_, congrArg (Option.map _) ha, hs⟩

theorem inInt_of_right {s : System} {e : Event} (h : Right hash s e) : InInt hash s e := by
  rintro rfl
  obtain ⟨⟨s', hs'⟩, -⟩ := h
  obtain ⟨a, ha, -⟩ := map_eq_some_iff.1 hs'
  obtain ⟨primary, hmove, ha⟩ := bind_eq_some_iff.1 ha
  split at ha
  · cases ha
  · next hnext => exact ⟨not_le.1 hnext, Assoc.exists_bucket_of_moveItems _ _ _ hmove⟩

theorem sound_init (hash : Bytes → UInt32) (hashpower : ℕ) : (System.init hashpower).Sound hash := by
  refine ⟨⟨fun b it hit => (not_mem_nil hit).elim, fun h => ?_, fun h => ?_⟩, fun k => rfl⟩ <;> cases h

theorem assoc_lookups_iff (hash : Bytes → UInt32) (hashpower : ℕ) (es : List Event)
    (hlegal : Lts.Along (System.step hash) Legal (.init hashpower) es) :
    Lts.Along (System.step hash) (Right hash) (.init hashpower) es ↔
      Lts.Along (System.step hash) (InInt hash) (.init hashpower) es := by
  refine Lts.Along.iff_of_invariant (fun s e hs hl => ⟨⟨inInt_of_right, fun hint => ?_⟩, fun hint s' hs' => ?_⟩)
    (sound_init hash hashpower) hlegal
  · obtain ⟨s', hs', -⟩ := hs.step hl hint
    exact ⟨⟨s', hs'⟩, fun key _ => hs.assocFind key⟩
  · obtain ⟨t, ht, hsound⟩ := hs.step hl hint
    rw [hs'] at ht
    exact some.inj ht ▸ hsound

theorem assoc_lookups_migrated :
    Lts.Along (System.step fun k => UInt32.ofNat k.length) (Right fun k => UInt32.ofNat k.length) (.init 1)
      [.insert ⟨1, [7, 7, 7], by decide⟩, .expand true, .find [7, 7, 7], .migrate, .migrate, .find [7, 7, 7],
        .delete [7, 7, 7], .find [7, 7, 7]] :=
  (assoc_lookups_iff _ 1 _ (by decide)).2 (by decide)

theorem migrate_overflow :
    Lts.Along (System.step fun _ => 0x80000000) Legal (.init 31)
        [.insert ⟨1, [7], by decide⟩, .expand true, .migrate] ∧
      ¬Lts.Along (System.step fun _ => 0x80000000) (Right fun _ => 0x80000000) (.init 31)
        [.insert ⟨1, [7], by decide⟩, .expand true, .migrate] := by
  refine ⟨by decide, fun h => ?_⟩
  obtain ⟨⟨s', hs'⟩, -⟩ := ((h.2 _ rfl).2 _ rfl).1
  cases hs'

end Memcached
