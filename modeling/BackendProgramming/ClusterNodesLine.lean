/-
**A line of the reply to `CLUSTER NODES`.**

Which lines the parser leaves out, and what entry it makes from the others.  The flag `nofailover` contains
the word `fail`; an address is cut at its first colon; a master without slots is an error; and a single slot
is read as `65535`, or up to the end of a range after it.
-/

import BackendProgramming.ClusterNodes

set_option autoImplicit false

namespace GBDownLinker

open CText StdString Option

/-! ### Nodes and their lines -/

def isPlain (b : UInt8) : Bool :=
  isDigit b || (97 ≤ b && b ≤ 102) || b == 46 || b == 58 || b == 64 || b == 45

structure PlainText where
  bytes : Bytes
  plain : ∀ b ∈ bytes, isPlain b = true
  deriving DecidableEq

structure NodeId extends PlainText where
  ne_nil : bytes ≠ []
  deriving DecidableEq

structure SlotRange where
  first : ℕ
  last : ℕ
  le : first ≤ last
  lt : last < 16384
  deriving DecidableEq

inductive SlotToken where
  | single (n : Fin 16384)
  | range (r : SlotRange)
  deriving DecidableEq

inductive Mark where
  | myself
  | mayFail
  | fail
  | handshake
  | noaddr
  | nofailover
  deriving DecidableEq, Repr

inductive Role where
  | master (slots : List SlotToken)
  | replica (masterId : NodeId)
  deriving DecidableEq

structure Node where
  id : NodeId
  ip : PlainText
  port : Fin 65536
  busPort : Option ℕ
  marksBefore : List Mark
  marksAfter : List Mark
  role : Role
  times : List ℕ
  connected : Bool
  deriving DecidableEq

namespace SlotToken

def text : SlotToken → Bytes
  | .single n => decimal n
  | .range r => decimal r.first ++ 45 :: decimal r.last

def Names : SlotToken → ℕ → Prop
  | .single n, k => k = n
  | .range r, k => r.first ≤ k ∧ k ≤ r.last

end SlotToken

def Mark.text : Mark → Bytes
  | .myself => ascii "myself"
  | .mayFail => ascii "fail?"
  | .fail => ascii "fail"
  | .handshake => ascii "handshake"
  | .noaddr => ascii "noaddr"
  | .nofailover => ascii "nofailover"

namespace Role

def flag : Role → Bytes
  | .master _ => ascii "master"
  | .replica _ => ascii "slave"

def isMaster : Role → Bool
  | .master _ => true
  | .replica _ => false

def masterText : Role → Bytes
  | .master _ => ascii "-"
  | .replica masterId => masterId.bytes

def masterId : Role → Bytes
  | .master _ => []
  | .replica masterId => masterId.bytes

def slots : Role → List SlotToken
  | .master slots => slots
  | .replica _ => []

end Role

namespace Node

def marks (node : Node) : List Mark := node.marksBefore ++ node.marksAfter

def flagList (node : Node) : List Bytes :=
  node.marksBefore.map Mark.text ++ node.role.flag :: node.marksAfter.map Mark.text

def address (node : Node) : Bytes := node.ip.bytes ++ 58 :: decimal node.port

def busText (node : Node) : Bytes :=
  match node.busPort with
  | none => []
  | some busPort => 64 :: decimal busPort

def linkText (node : Node) : Bytes :=
  if node.connected then ascii "connected" else ascii "disconnected"

def tailText (node : Node) : Bytes :=
  node.times.flatMap (fun n => decimal n ++ [32]) ++
    (node.linkText ++ node.role.slots.flatMap fun t => 32 :: t.text)

def text (node : Node) : Bytes :=
  node.id.bytes ++ 32 :: ((node.address ++ node.busText) ++ 32 ::
    (List.intercalate [44] node.flagList ++ 32 :: (node.role.masterText ++ 32 :: node.tailText)))

def IsMarked (node : Node) : Prop :=
  Mark.fail ∈ node.marks ∨ Mark.mayFail ∈ node.marks ∨ Mark.noaddr ∈ node.marks ∨
    node.connected = false

instance (node : Node) : Decidable node.IsMarked :=
  inferInstanceAs (Decidable (_ ∨ _ ∨ _ ∨ _))

end Node

/-! ### Words in a line -/

theorem isPlain_decimal {n : ℕ} {b : UInt8} (hb : b ∈ decimal n) : isPlain b = true := by
  simp [isPlain, isDigit_of_mem_decimal n b hb]

theorem lt_of_isPlain {b : UInt8} (h : isPlain b = true) : 32 < b := by
  simp only [isPlain, isDigit, Bool.or_eq_true, Bool.and_eq_true, decide_eq_true_eq,
    beq_iff_eq] at h
  rcases h with ((((h | h) | rfl) | rfl) | rfl) | rfl
  · exact UInt8.lt_of_lt_of_le (by decide) h.1
  · exact UInt8.lt_of_lt_of_le (by decide) h.1
  · decide
  · decide
  · decide
  · decide

theorem SlotToken.isPlain_text {t : SlotToken} {b : UInt8} (hb : b ∈ t.text) : isPlain b = true := by
  cases t with
  | single n => exact isPlain_decimal hb
  | range r =>
    rcases List.mem_append.1 hb with hb | hb
    · exact isPlain_decimal hb
    · rcases List.mem_cons.1 hb with rfl | hb
      · decide
      · exact isPlain_decimal hb

structure IsWord (pat : Bytes) : Prop where
  blank : 32 ∉ pat
  comma : 44 ∉ pat
  letter : ∃ b ∈ pat, isPlain b = false

section Words

variable {pat : Bytes}

theorem IsWord.ne_nil (h : IsWord pat) : pat ≠ [] := by
  obtain ⟨b, hb, -⟩ := h.letter
  exact List.ne_nil_of_mem hb

theorem IsWord.not_isInfix_plain (h : IsWord pat) {s : Bytes} (hs : ∀ b ∈ s, isPlain b = true) :
    ¬ pat <:+: s := by
  intro hpat
  obtain ⟨b, hb, hplain⟩ := h.letter
  rw [hs b (hpat.subset hb)] at hplain
  cases hplain

theorem IsWord.isInfix_times_iff (h : IsWord pat) (times : List ℕ) (s : Bytes) :
    pat <:+: times.flatMap (fun n => decimal n ++ [32]) ++ s ↔ pat <:+: s := by
  induction times with
  | nil => rfl
  | cons n times ih =>
    rw [List.flatMap_cons, List.append_assoc, List.append_assoc, List.singleton_append,
      isInfix_field_iff h.blank h.ne_nil, ih]
    exact or_iff_right (h.not_isInfix_plain fun b => isPlain_decimal)

theorem IsWord.isInfix_slots_iff (h : IsWord pat) (slots : List SlotToken) (s : Bytes) :
    pat <:+: s ++ slots.flatMap (fun t => 32 :: t.text) ↔ pat <:+: s := by
  induction slots generalizing s with
  | nil => rw [List.flatMap_nil, List.append_nil]
  | cons t slots ih =>
    rw [List.flatMap_cons, List.cons_append, isInfix_field_iff h.blank h.ne_nil, ih]
    exact or_iff_left (h.not_isInfix_plain fun b => SlotToken.isPlain_text)

theorem IsWord.isInfix_flags_iff (h : IsWord pat) (flags : List Bytes) :
    pat <:+: List.intercalate [44] flags ↔ ∃ f ∈ flags, pat <:+: f := by
  induction flags with
  | nil => simp [h.ne_nil]
  | cons f flags ih =>
    cases flags with
    | nil => simp
    | cons f' flags =>
      rw [List.intercalate_cons_cons, List.append_assoc, List.singleton_append,
        isInfix_field_iff h.comma h.ne_nil, ih]
      simp only [List.mem_cons, or_and_right, exists_or, exists_eq_left]

theorem Node.isPlain_address {node : Node} {b : UInt8} (hb : b ∈ node.address ++ node.busText) :
    isPlain b = true := by
  rcases List.mem_append.1 hb with hb | hb
  · rcases List.mem_append.1 hb with hb | hb
    · exact node.ip.plain b hb
    · rcases List.mem_cons.1 hb with rfl | hb
      · decide
      · exact isPlain_decimal hb
  · unfold Node.busText at hb
    split at hb
    · cases hb
    · rcases List.mem_cons.1 hb with rfl | hb
      · decide
      · exact isPlain_decimal hb

theorem Role.isPlain_masterText {role : Role} {b : UInt8} (hb : b ∈ role.masterText) :
    isPlain b = true := by
  cases role with
  | master slots =>
    obtain rfl : b = 45 := List.mem_singleton.1 hb
    decide
  | replica masterId => exact masterId.plain b hb

theorem IsWord.isInfix_text_iff (h : IsWord pat) (node : Node) :
    pat <:+: node.text ↔ (∃ f ∈ node.flagList, pat <:+: f) ∨ pat <:+: node.linkText := by
  have hid := h.not_isInfix_plain node.id.plain
  have haddress := h.not_isInfix_plain (s := node.address ++ node.busText) fun b => Node.isPlain_address
  have hmaster := h.not_isInfix_plain (s := node.role.masterText) fun b => Role.isPlain_masterText
  rw [Node.text, isInfix_field_iff h.blank h.ne_nil, isInfix_field_iff h.blank h.ne_nil,
    isInfix_field_iff h.blank h.ne_nil, isInfix_field_iff h.blank h.ne_nil, h.isInfix_flags_iff,
    Node.tailText, h.isInfix_times_iff, h.isInfix_slots_iff]
  simp only [hid, haddress, hmaster, false_or]

theorem Node.exists_flag_iff (node : Node) :
    (∃ f ∈ node.flagList, pat <:+: f) ↔
      (∃ m ∈ node.marks, pat <:+: m.text) ∨ pat <:+: node.role.flag := by
  simp only [Node.flagList, Node.marks, List.mem_append, List.mem_cons, List.mem_map]
  constructor
  · rintro ⟨f, ⟨m, hm, rfl⟩ | rfl | ⟨m, hm, rfl⟩, hf⟩
    · exact Or.inl ⟨m, Or.inl hm, hf⟩
    · exact Or.inr hf
    · exact Or.inl ⟨m, Or.inr hm, hf⟩
  · rintro (⟨m, hm | hm, hf⟩ | hf)
    · exact ⟨_, Or.inl ⟨m, hm, rfl⟩, hf⟩
    · exact ⟨_, Or.inr (Or.inr ⟨m, hm, rfl⟩), hf⟩
    · exact ⟨_, Or.inr (Or.inl rfl), hf⟩

theorem Node.contains_text_iff (h : IsWord pat) (hmaster : ¬ pat <:+: ascii "master")
    (hslave : ¬ pat <:+: ascii "slave") (node : Node) :
    contains node.text pat = true ↔ (∃ m ∈ node.marks, pat <:+: m.text) ∨ pat <:+: node.linkText := by
  have hrole : ¬ pat <:+: node.role.flag := by
    cases node.role with
    | master slots => exact hmaster
    | replica masterId => exact hslave
  rw [contains_iff, h.isInfix_text_iff, Node.exists_flag_iff, or_iff_left hrole]

end Words

theorem Node.contains_fail_iff (node : Node) :
    contains node.text (ascii "fail") = true ↔
      Mark.fail ∈ node.marks ∨ Mark.mayFail ∈ node.marks ∨ Mark.nofailover ∈ node.marks := by
  have hmark : ∀ m : Mark, ascii "fail" <:+: m.text ↔ m = .fail ∨ m = .mayFail ∨ m = .nofailover := by
    intro m
    cases m <;> decide
  have hlink : ¬ ascii "fail" <:+: node.linkText := by
    unfold Node.linkText
    split <;> decide
  rw [Node.contains_text_iff ⟨by decide, by decide, by decide⟩ (by decide) (by decide),
    or_iff_left hlink]
  simp only [hmark]
  constructor
  · rintro ⟨m, hm, rfl | rfl | rfl⟩
    · exact Or.inl hm
    · exact Or.inr (Or.inl hm)
    · exact Or.inr (Or.inr hm)
  · rintro (h | h | h)
    · exact ⟨_, h, by simp⟩
    · exact ⟨_, h, by simp⟩
    · exact ⟨_, h, by simp⟩

theorem Node.contains_noaddr_iff (node : Node) :
    contains node.text (ascii "noaddr") = true ↔ Mark.noaddr ∈ node.marks := by
  have hmark : ∀ m : Mark, ascii "noaddr" <:+: m.text ↔ m = .noaddr := by
    intro m
    cases m <;> decide
  have hlink : ¬ ascii "noaddr" <:+: node.linkText := by
    unfold Node.linkText
    split <;> decide
  rw [Node.contains_text_iff ⟨by decide, by decide, by decide⟩ (by decide) (by decide),
    or_iff_left hlink]
  simp only [hmark, exists_eq_right]

theorem Node.contains_disconnected_iff (node : Node) :
    contains node.text (ascii "disconnected") = true ↔ node.connected = false := by
  have hmark : ¬ ∃ m ∈ node.marks, ascii "disconnected" <:+: m.text := by
    rintro ⟨m, -, h⟩
    revert h
    cases m <;> decide
  rw [Node.contains_text_iff ⟨by decide, by decide, by decide⟩ (by decide) (by decide),
    or_iff_right hmark, Node.linkText]
  cases node.connected <;> decide

theorem isSkipped_text (node : Node) :
    isSkipped node.text = true ↔ node.IsMarked ∨ Mark.nofailover ∈ node.marks := by
  rw [isSkipped, Bool.or_eq_true, Bool.or_eq_true, node.contains_fail_iff, node.contains_noaddr_iff,
    node.contains_disconnected_iff, Node.IsMarked]
  tauto

/-! ### The slots of a line -/

def Covers (slotMap : StdMap ℕ ℕ) (slots : List SlotToken) : Prop :=
  ∀ n, (∃ x ∈ slotMap.entries, x.1 ≤ n ∧ n ≤ x.2) ↔ ∃ t ∈ slots, t.Names n

def slotsText : List SlotToken → Bytes
  | [] => []
  | [t] => t.text
  | t :: slots => t.text ++ 32 :: slotsText slots

def readSlots : ℕ → List SlotToken → StdMap ℕ ℕ → StdMap ℕ ℕ
  | _, [], slotMap => slotMap
  | _, [t], slotMap => putSlot t.text slotMap
  | pos, t :: t' :: slots, slotMap =>
    readSlots (pos + t.text.length + 1) (t' :: slots)
      (putSlot ((slotsText (t :: t' :: slots)).take (pos + t.text.length)) slotMap)

theorem blank_notMem_of_plain {s : Bytes} (hs : ∀ b ∈ s, isPlain b = true) : 32 ∉ s := fun h =>
  absurd (hs 32 h) (by decide)

theorem SlotToken.blank_notMem_text (t : SlotToken) : 32 ∉ t.text :=
  blank_notMem_of_plain fun _ => SlotToken.isPlain_text

theorem slotLoop_eq {infoStr : Bytes} {slots : List SlotToken} (hne : slots ≠ []) {fuel pos : ℕ}
    (hfuel : slots.length ≤ fuel) (hpos : infoStr.drop pos = slotsText slots) (slotMap : StdMap ℕ ℕ) :
    slotLoop infoStr fuel pos slotMap = readSlots pos slots slotMap := by
  induction slots generalizing fuel pos slotMap with
  | nil => exact absurd rfl hne
  | cons t slots ih =>
    obtain ⟨fuel, rfl⟩ := Nat.exists_eq_add_of_lt (Nat.lt_of_lt_of_le (Nat.zero_lt_succ _) hfuel)
    rw [Nat.zero_add, slotLoop]
    cases slots with
    | nil =>
      have hlast : find infoStr blank pos = none := find_last (hpos ▸ t.blank_notMem_text)
      have hsubstr : substr infoStr pos (infoStr.length - pos) = t.text := by
        rw [substr, List.take_of_length_le (by simp)]
        exact hpos
      rw [hlast, hsubstr]
      rfl
    | cons t' slots =>
      have hfield : find infoStr blank pos = some (pos + t.text.length) :=
        find_field hpos t.blank_notMem_text
      rw [hfield]
      dsimp only
      rw [ih (by simp) (by simpa using hfuel) (drop_field hpos), readSlots, substr, hpos]

theorem toUInt32_natCast {n : ℕ} (h : n < 2 ^ 32) : toUInt32 n = n := by
  unfold toUInt32
  omega

/-! ### One line -/

namespace Node

def readSlots (node : Node) : StdMap ℕ ℕ :=
  GBDownLinker.readSlots (node.text.length - (slotsText node.role.slots).length) node.role.slots ∅

def entry (node : Node) : RedisClusterInfo where
  clusterId := node.id.bytes
  connectIp := (parseAddress (node.address ++ node.busText)).1
  connectPort := (parseAddress (node.address ++ node.busText)).2
  isMaster := node.role.isMaster
  isAlived := true
  masterClusterId := node.role.masterId
  slotMap := node.readSlots

theorem mem_intercalate {flags : List Bytes} {b : UInt8} (h : b ∈ List.intercalate [44] flags) :
    b = 44 ∨ ∃ f ∈ flags, b ∈ f := by
  induction flags with
  | nil => simp at h
  | cons f flags ih =>
    cases flags with
    | nil => exact Or.inr ⟨f, by simp, by simpa using h⟩
    | cons f' flags =>
      rw [List.intercalate_cons_cons, List.append_assoc, List.mem_append] at h
      rcases h with h | h
      · exact Or.inr ⟨f, by simp, h⟩
      · rcases List.mem_cons.1 h with h | h
        · exact Or.inl h
        · exact (ih h).imp_right fun ⟨g, hg, hb⟩ => ⟨g, List.mem_cons_of_mem _ hg, hb⟩

theorem lt_of_mem_flags {node : Node} {b : UInt8} (h : b ∈ List.intercalate [44] node.flagList) :
    32 < b := by
  have hmark : ∀ m : Mark, ∀ b ∈ m.text, 32 < b := by
    intro m
    cases m <;> exact forall_mem_of_all rfl
  have hrole : ∀ b ∈ node.role.flag, 32 < b := by
    cases node.role with
    | master slots => exact forall_mem_of_all rfl
    | replica masterId => exact forall_mem_of_all rfl
  rcases mem_intercalate h with rfl | ⟨f, hf, hb⟩
  · decide
  · simp only [flagList, List.mem_append, List.mem_cons, List.mem_map] at hf
    rcases hf with ⟨m, -, rfl⟩ | rfl | ⟨m, -, rfl⟩
    · exact hmark m b hb
    · exact hrole b hb
    · exact hmark m b hb

theorem contains_master (node : Node) :
    contains (List.intercalate [44] node.flagList) (ascii "master") = node.role.isMaster := by
  have hword : IsWord (ascii "master") := ⟨by decide, by decide, by decide⟩
  have hmark : ¬ ∃ m ∈ node.marks, ascii "master" <:+: m.text := by
    rintro ⟨m, -, h⟩
    revert h
    cases m <;> decide
  rw [Bool.eq_iff_iff, contains_iff, hword.isInfix_flags_iff, exists_flag_iff, or_iff_right hmark]
  cases node.role with
  | master slots => exact show ascii "master" <:+: ascii "master" ↔ true = true by decide
  | replica masterId => exact show ascii "master" <:+: ascii "slave" ↔ false = true by decide

theorem tail_connected {node : Node} (h : node.connected = true) :
    node.tailText = node.times.flatMap (fun n => decimal n ++ [32]) ++
      (ascii "connected" ++ node.role.slots.flatMap fun t => 32 :: t.text) := by
  rw [tailText, linkText, if_pos h]

theorem slots_flatMap {slots : List SlotToken} (h : slots ≠ []) :
    slots.flatMap (fun t => 32 :: t.text) = 32 :: slotsText slots := by
  induction slots with
  | nil => exact absurd rfl h
  | cons t slots ih =>
    cases slots with
    | nil => simp [slotsText]
    | cons t' slots =>
      rw [List.flatMap_cons, ih (by simp)]
      rfl

theorem length_le_slotsText (slots : List SlotToken) : slots.length ≤ (slotsText slots).length := by
  have htext : ∀ t : SlotToken, 0 < t.text.length := by
    intro t
    cases t with
    | single n => exact List.length_pos_iff.2 (decimal_ne_nil n)
    | range r => simp [SlotToken.text]
  induction slots with
  | nil => exact Nat.le_refl _
  | cons t slots ih =>
    have := htext t
    cases slots with
    | nil => exact this
    | cons t' slots =>
      simp only [slotsText, List.length_append, List.length_cons] at ih ⊢
      omega

theorem find_disconnected {node : Node} (hconnected : node.connected = true) {pos : ℕ}
    (hpos : node.text.drop pos = node.tailText) :
    find node.text (ascii "disconnected") pos = none := by
  have hword : IsWord (ascii "disconnected") := ⟨by decide, by decide, by decide⟩
  rw [← not_isSome_iff_eq_none, find_isSome, hpos, tail_connected hconnected,
    hword.isInfix_times_iff, hword.isInfix_slots_iff]
  decide

theorem find_connected {node : Node} (hconnected : node.connected = true) {pos : ℕ}
    (hpos : node.text.drop pos = node.tailText) :
    ∃ pos', find node.text (ascii "connected") pos = some pos' ∧
      node.text.drop (pos' + 1) =
        ascii "onnected" ++ node.role.slots.flatMap fun t => 32 :: t.text := by
  have hnotMem : 99 ∉ node.times.flatMap (fun n => decimal n ++ [32]) := by
    intro h
    obtain ⟨n, -, h⟩ := List.mem_flatMap.1 h
    rcases List.mem_append.1 h with h | h
    · exact absurd (isDigit_of_mem_decimal n 99 h) (by decide)
    · exact absurd (List.mem_singleton.1 h) (by decide)
  rw [tail_connected hconnected] at hpos
  exact ⟨_, find_append hpos hnotMem, drop_field hpos⟩

theorem parseLink_tail {node : Node} (hconnected : node.connected = true) {pos : ℕ}
    (hpos : node.text.drop pos = node.tailText) {info : RedisClusterInfo}
    (hmaster : info.isMaster = node.role.isMaster) (hslots : info.slotMap = ∅) :
    parseLink node.text pos info =
      if node.role = .master [] then none
      else some { info with isAlived := true, slotMap := node.readSlots } := by
  obtain ⟨pos', hfind, hdrop⟩ := find_connected hconnected hpos
  rw [parseLink, find_disconnected hconnected hpos, hfind]
  dsimp only [isNone_none, map_some, getD_some]
  rw [hmaster]
  cases hrole : node.role with
  | replica masterId =>
    have hread : node.readSlots = ∅ := by simp [readSlots, hrole, Role.slots, GBDownLinker.readSlots]
    simp [Role.isMaster, hread, hslots]
  | master slots =>
    rw [hrole] at hdrop
    by_cases hne : slots = []
    · have hlast : find node.text blank (pos' + 1) = none := by
        refine find_last ?_
        rw [hdrop, hne]
        decide
      simp [Role.isMaster, hlast, hne]
    · have hslotsText : node.text.drop (pos' + 1) = ascii "onnected" ++ 32 :: slotsText slots := by
        rw [hdrop]
        exact congrArg _ (slots_flatMap hne)
      have hfield : find node.text blank (pos' + 1) = some (pos' + 1 + (ascii "onnected").length) :=
        find_field hslotsText (by decide)
      have hrest := drop_field hslotsText
      -- the first slot stands where the rest of the line is the text of the slots
      have hlength := congrArg List.length hrest
      rw [List.length_drop] at hlength
      have hcount := length_le_slotsText slots
      have hpos : 0 < slots.length := List.length_pos_iff.2 hne
      have hread : node.readSlots = GBDownLinker.readSlots
          (pos' + 1 + (ascii "onnected").length + 1) slots ∅ := by
        rw [readSlots, hrole]
        congr 1
        simp only [Role.slots]
        omega
      have hloop := slotLoop_eq hne (show slots.length ≤ node.text.length by omega) hrest ∅
      rw [hfield, hread, ← hloop]
      simp [Role.isMaster, hne]

theorem parseOneCluster_text {node : Node} (hconnected : node.connected = true) :
    parseOneCluster node.text = if node.role = .master [] then none else some node.entry := by
  have hblank : ∀ {s : Bytes}, (∀ b ∈ s, isPlain b = true) → 32 ∉ s := blank_notMem_of_plain
  -- the fields one after the other: `hid`, ... find the blank after a field, `hᵢ` is the rest
  have h₀ : node.text.drop 0 = node.id.bytes ++ 32 :: _ := rfl
  have hid := find_field h₀ (hblank node.id.plain)
  have h₁ := drop_field h₀
  have haddress := find_field h₁ (hblank fun b => isPlain_address)
  have h₂ := drop_field h₁
  have hflags := find_field h₂ fun h => absurd (lt_of_mem_flags h) (by decide)
  have h₃ := drop_field h₂
  have hmaster := find_field h₃ (hblank fun b => Role.isPlain_masterText)
  have h₄ := drop_field h₃
  have hidText : substr node.text 0 (0 + node.id.bytes.length) = node.id.bytes := substr_field h₀
  have hmasterId : (if node.role.isMaster then [] else node.role.masterText) = node.role.masterId := by
    cases node.role <;> rfl
  rw [parseOneCluster, blank, hid]
  dsimp only
  rw [haddress, bind_eq_bind, bind_some, hflags, bind_some, hmaster,
    bind_some, substr_field h₁, substr_field h₂, substr_field h₃, hidText, contains_master,
    hmasterId, parseLink_tail hconnected h₄ rfl rfl]
  rfl

theorem parseAddress_text {node : Node} (hip : 58 ∉ node.ip.bytes) :
    parseAddress (node.address ++ node.busText) = (node.ip.bytes, (node.port : ℕ)) := by
  have htext : node.address ++ node.busText =
      node.ip.bytes ++ 58 :: (decimal node.port ++ node.busText) := by simp [address]
  have htext₀ : (node.address ++ node.busText).drop 0 =
      node.ip.bytes ++ 58 :: (decimal node.port ++ node.busText) := htext
  have hfind : find (node.address ++ node.busText) (ascii ":") 0 = some (0 + node.ip.bytes.length) :=
    find_field htext₀ hip
  have hsubstr : substr (node.address ++ node.busText) 0 (0 + node.ip.bytes.length) = node.ip.bytes :=
    substr_field htext₀
  have hrest : substr (node.address ++ node.busText) (0 + node.ip.bytes.length + 1)
      ((node.address ++ node.busText).length - (0 + node.ip.bytes.length)) =
        decimal node.port ++ node.busText := by
    rw [substr, drop_field htext₀, List.take_of_length_le]
    rw [htext]
    simp
  have hdigit : ∀ b, node.busText.head? = some b → isDigit b = false := by
    intro b hb
    unfold busText at hb
    split at hb
    · cases hb
    · cases hb
      decide
  rw [parseAddress, hfind]
  dsimp only
  rw [hsubstr, hrest, atoi_decimal_append (by omega) hdigit, toUInt32_natCast (by omega)]

theorem colon_notMem_connectIp (node : Node) : 58 ∉ node.entry.connectIp := by
  have hmem : 58 ∈ node.address ++ node.busText := by simp [address]
  obtain ⟨a, b, htext, ha⟩ := List.eq_append_cons_of_mem hmem
  have htext₀ : (node.address ++ node.busText).drop 0 = a ++ 58 :: b := htext
  have hfind : find (node.address ++ node.busText) (ascii ":") 0 = some (0 + a.length) :=
    find_field htext₀ ha
  have hip : node.entry.connectIp = a := by
    show (parseAddress (node.address ++ node.busText)).1 = a
    rw [parseAddress, hfind]
    exact substr_field htext₀
  rwa [hip]

theorem entry_address {node : Node} (hip : 58 ∉ node.ip.bytes) : node.entry.address = node.address := by
  have htoStr : toStr node.port = decimal node.port := by
    rw [toStr, if_neg (by omega)]
  rw [RedisClusterInfo.address, entry]
  rw [parseAddress_text hip, htoStr, List.append_assoc]
  rfl

theorem le_of_mem_text {node : Node} {b : UInt8} (h : b ∈ node.text) : 32 ≤ b := by
  have hplain : isPlain b = true → 32 ≤ b := fun h => UInt8.le_of_lt (lt_of_isPlain h)
  have hlink : ∀ b ∈ node.linkText, 32 ≤ b := by
    unfold linkText
    split <;> exact forall_mem_of_all rfl
  simp only [text, List.mem_append, List.mem_cons] at h
  rcases h with h | rfl | (h | h) | rfl | h | rfl | h | rfl | h
  · exact hplain (node.id.plain b h)
  · decide
  · exact hplain (isPlain_address (List.mem_append_left _ h))
  · exact hplain (isPlain_address (List.mem_append_right _ h))
  · decide
  · exact UInt8.le_of_lt (lt_of_mem_flags h)
  · decide
  · exact hplain (Role.isPlain_masterText h)
  · decide
  · simp only [tailText, List.mem_append, List.mem_flatMap, List.mem_cons, List.not_mem_nil] at h
    rcases h with ⟨n, -, h | rfl | h⟩ | h | ⟨t, -, rfl | h⟩
    · exact hplain (isPlain_decimal h)
    · decide
    · exact h.elim
    · exact hlink b h
    · decide
    · exact hplain (SlotToken.isPlain_text h)

end Node

end GBDownLinker
