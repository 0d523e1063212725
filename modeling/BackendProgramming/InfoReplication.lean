/-
**Parsing the reply to `INFO replication`.**

`ParseInfoReplicationReply` goes through the text line by line, looks at how a line begins, and stops as soon
as it has as many addresses of replicas as the line with their number says.
-/

import Mathlib.Data.List.TakeWhile
import BackendProgramming.Resp
import BackendProgramming.SentinelMaster

set_option autoImplicit false

namespace GBDownLinker

open CText StdString List Option

/-! ### The parser -/

def parseSlaveLine (linemsg : Bytes) : Option RedisServerInfo := do
  let ipPos ← find linemsg (ascii "ip=") 0
  let ipEnd ← find linemsg (ascii ",") (ipPos + 3)
  let portPos ← find linemsg (ascii "port=") ipEnd
  let portEnd ← find linemsg (ascii ",") (portPos + 5)
  some
    { serverIp := substr linemsg (ipPos + 3) (ipEnd - (ipPos + 3))
      serverPort := toUInt32 (atoi (substr linemsg (portPos + 5) (portEnd - (portPos + 5)))) }

def beginsWith (linemsg word : Bytes) : Bool := word.isPrefixOf (linemsg ++ [0])

def parseSlavesCount (linemsg : Bytes) : ℕ :=
  let start := (ascii "connected_slaves:").length
  let str := match find linemsg (ascii "\r") 0 with
    | some pos => substr linemsg start (pos - start)
    | none => linemsg.drop start
  (atoi str % 2 ^ 64).toNat

def infoLoop (msg : Bytes) : ℕ → ℕ → ℕ → List RedisServerInfo → Option (List RedisServerInfo)
  | 0, _, _, _ => none
  | fuel + 1, startpos, slavescount, slaves =>
    match find msg (ascii "\n") startpos with
    | none => some slaves
    | some endpos =>
      let linemsg := substr msg startpos (endpos - startpos)
      if linemsg = ascii "\r" then some slaves
      else if beginsWith linemsg (ascii "connected_slaves:") then
        infoLoop msg fuel (endpos + 1) (parseSlavesCount linemsg) slaves
      else if beginsWith linemsg (ascii "slave") then
        let slaves := slaves ++ (parseSlaveLine linemsg).toList
        if slavescount ≤ slaves.length then some slaves
        else infoLoop msg fuel (endpos + 1) slavescount slaves
      else infoLoop msg fuel (endpos + 1) slavescount slaves

def parseInfoReplicationReply (replyInfo : RedisReplyInfo) (slaves : List RedisServerInfo) :
    Option (Bool × List RedisServerInfo) :=
  if replyInfo.replyType ≠ .string then some (false, slaves)
  else
    match replyInfo.arrayList with
    | [] => some (false, slaves)
    | reply :: _ =>
      if reply.replyType ≠ .string ∨ reply.arrayLen = 0 then some (false, slaves)
      else do
        let value ← reply.arrayValue
        let msg := value.takeWhile (· ≠ 0)
        let slaves ← infoLoop msg (msg.length + 1) 0 0 slaves
        some (true, slaves)

/-! ### Well-formed texts -/

structure SlaveLine where
  index : Bytes
  ip : Bytes
  port : Bytes
  rest : Bytes
  index_digits : ∀ b ∈ index, isDigit b = true
  ip_open : IsOpen ip
  ip_field : 44 ∉ ip
  port_int : IsIntText port
  rest_open : IsOpen rest

namespace SlaveLine

def text (line : SlaveLine) : Bytes :=
  ascii "slave" ++ line.index ++ ascii ":ip=" ++ line.ip ++ ascii ",port=" ++ line.port ++ ascii "," ++ line.rest

def address (line : SlaveLine) : RedisServerInfo := ⟨line.ip, toUInt32 (intVal line.port)⟩

end SlaveLine

structure OtherLine where
  text : Bytes
  ne_nil : text ≠ []
  text_open : IsOpen text
  not_slave : ¬ ascii "slave" <+: text
  not_connected : ¬ ascii "connected_slaves:" <+: text

abbrev InfoLine := SlaveLine ⊕ OtherLine

def InfoLine.text : InfoLine → Bytes := Sum.elim SlaveLine.text OtherLine.text

def slaveLines (lines : List InfoLine) : List SlaveLine := lines.filterMap Sum.getLeft?

@[simp] theorem slaveLines_inl (slave : SlaveLine) (lines : List InfoLine) :
    slaveLines (.inl slave :: lines) = slave :: slaveLines lines := rfl

@[simp] theorem slaveLines_inr (other : OtherLine) (lines : List InfoLine) :
    slaveLines (.inr other :: lines) = slaveLines lines := rfl

def joinLines (lines : List Bytes) : Bytes := lines.flatMap (· ++ crlf)

def infoText (before : List OtherLine) (after : List InfoLine) : Bytes :=
  joinLines (before.map OtherLine.text ++
    (ascii "connected_slaves:" ++ decimal (slaveLines after).length) :: after.map InfoLine.text)

/-! ### The lines -/

theorem beginsWith_iff {linemsg word : Bytes} (hword : 0 ∉ word) :
    beginsWith linemsg word = true ↔ word <+: linemsg := by
  rw [beginsWith, isPrefixOf_iff_prefix]
  exact isPrefix_field_iff hword

theorem comma_notMem_of_isIntText {t : Bytes} (h : IsIntText t) : 44 ∉ t := by
  obtain ⟨sign, digits, hsign, -, hdigits, rfl, -, -⟩ := h
  intro hmem
  rcases mem_append.1 hmem with hmem | hmem
  · rcases hsign with rfl | rfl | rfl <;> simp at hmem
  · exact isDigit_ne (hdigits 44 hmem) (by decide) rfl

theorem SlaveLine.parseSlaveLine_text (line : SlaveLine) :
    parseSlaveLine (line.text ++ [13]) = some line.address := by
  obtain ⟨linemsg, hmsg⟩ : ∃ linemsg, linemsg = line.text ++ [13] := ⟨_, rfl⟩
  have hindex : (105 : UInt8) ∉ ascii "slave" ++ line.index ++ ascii ":" := by
    simp only [mem_append, not_or]
    exact ⟨⟨by decide, fun h => isDigit_ne (line.index_digits _ h) (by decide) rfl⟩, by decide⟩
  -- the places of the four fields
  have hip : linemsg.drop 0 = (ascii "slave" ++ line.index ++ ascii ":") ++ (ascii "ip=" ++
      (line.ip ++ 44 :: (ascii "port=" ++ (line.port ++ 44 :: (line.rest ++ [13]))))) := by
    rw [hmsg, drop_zero, SlaveLine.text, show ascii ":ip=" = ascii ":" ++ ascii "ip=" from rfl,
      show ascii ",port=" = [44] ++ ascii "port=" from rfl, show ascii "," = [44] from rfl]
    simp
  obtain ⟨ipPos, hipPos⟩ : ∃ pos, pos = (ascii "slave" ++ line.index ++ ascii ":").length := ⟨_, rfl⟩
  have hipText : linemsg.drop (ipPos + 3) =
      line.ip ++ 44 :: (ascii "port=" ++ (line.port ++ 44 :: (line.rest ++ [13]))) := by
    have hdrop := drop_part hip
    rw [Nat.zero_add, ← hipPos] at hdrop
    exact drop_part hdrop
  have hcomma : linemsg.drop (ipPos + 3 + line.ip.length) =
      [44] ++ (ascii "port=" ++ (line.port ++ 44 :: (line.rest ++ [13]))) := drop_part hipText
  have hport : linemsg.drop (ipPos + 3 + line.ip.length + 1 + 5) = line.port ++ 44 :: (line.rest ++ [13]) :=
    drop_part (drop_part hcomma)
  have hfindIp : find linemsg (ascii "ip=") 0 = some ipPos := by
    rw [hipPos, ← Nat.zero_add (length _)]
    exact find_append hip hindex
  have hfindPort : find linemsg (ascii "port=") (ipPos + 3 + line.ip.length) =
      some (ipPos + 3 + line.ip.length + 1) := find_append hcomma (by decide)
  have hfindIpEnd := find_field hipText line.ip_field
  have hfindPortEnd := find_field hport (comma_notMem_of_isIntText line.port_int)
  rw [← hmsg, parseSlaveLine, hfindIp, bind_eq_bind, bind_some]
  simp only [show ascii "," = [44] from rfl, hfindIpEnd, hfindPort, hfindPortEnd, bind_some,
    substr_field hipText, substr_field hport, atoi_intText line.port_int]
  rfl

theorem isOpen_word {word : Bytes} (h : word.all (fun b => decide (b ≠ 0 ∧ b ≠ 10)) = true) : IsOpen word :=
  forall_mem_of_all h

theorem SlaveLine.text_open (line : SlaveLine) : IsOpen line.text := by
  intro b hb
  simp only [SlaveLine.text, mem_append] at hb
  rcases hb with ((((((hb | hb) | hb) | hb) | hb) | hb) | hb) | hb
  · exact isOpen_word (by decide) b hb
  · exact IsOpen.of_digits line.index_digits b hb
  · exact isOpen_word (by decide) b hb
  · exact line.ip_open b hb
  · exact isOpen_word (by decide) b hb
  · exact Resp.isOpen_of_isIntText line.port_int b hb
  · exact isOpen_word (by decide) b hb
  · exact line.rest_open b hb

/-! ### The loop -/

section Loop

variable {msg line more : Bytes} {p : ℕ}

theorem infoLoop_line (hp : msg.drop p = line ++ crlf ++ more) (hopen : IsOpen line) (hne : line ≠ [])
    (fuel count : ℕ) (slaves : List RedisServerInfo) :
    msg.drop (p + line.length + 2) = more ∧
    infoLoop msg (fuel + 1) p count slaves =
      if ascii "connected_slaves:" <+: line then
        infoLoop msg fuel (p + line.length + 2) (parseSlavesCount (line ++ [13])) slaves
      else if ascii "slave" <+: line then
        if count ≤ (slaves ++ (parseSlaveLine (line ++ [13])).toList).length then
          some (slaves ++ (parseSlaveLine (line ++ [13])).toList)
        else infoLoop msg fuel (p + line.length + 2) count (slaves ++ (parseSlaveLine (line ++ [13])).toList)
      else infoLoop msg fuel (p + line.length + 2) count slaves := by
  have hend : msg.drop p = (line ++ [13]) ++ 10 :: more := by
    rw [hp, crlf]
    simp
  have hlf : (10 : UInt8) ∉ line ++ [13] := by
    simpa using hopen.lf_notMem
  have hfind := find_field hend hlf
  have hline := substr_field hend
  have hdrop := drop_field hend
  simp only [length_append, length_singleton] at hfind hline hdrop
  refine ⟨hdrop, ?_⟩
  have hcr : line ++ [13] ≠ ascii "\r" := by
    intro heq
    exact hne (append_cancel_right (heq.trans (nil_append [13]).symm))
  have hbegins : ∀ word : Bytes, 0 ∉ word → 13 ∉ word →
      (beginsWith (line ++ [13]) word = true ↔ word <+: line) := fun word hzero hword =>
    (beginsWith_iff hzero).trans (isPrefix_field_iff hword)
  rw [infoLoop, show ascii "\n" = [10] from rfl, hfind]
  simp only [hline, if_neg hcr, hbegins (ascii "connected_slaves:") (by decide) (by decide),
    hbegins (ascii "slave") (by decide) (by decide), Nat.add_assoc]

theorem infoLoop_end (hp : msg.drop p = []) (fuel count : ℕ) (slaves : List RedisServerInfo) :
    infoLoop msg (fuel + 1) p count slaves = some slaves := by
  have hfind : find msg [10] p = none := find_last (by simp [hp])
  rw [infoLoop, show ascii "\n" = [10] from rfl, hfind]

theorem infoLoop_other (other : OtherLine) (hp : msg.drop p = other.text ++ crlf ++ more) (fuel count : ℕ)
    (slaves : List RedisServerInfo) :
    msg.drop (p + other.text.length + 2) = more ∧
    infoLoop msg (fuel + 1) p count slaves =
      infoLoop msg fuel (p + other.text.length + 2) count slaves := by
  obtain ⟨hdrop, hloop⟩ := infoLoop_line hp other.text_open other.ne_nil fuel count slaves
  rw [if_neg other.not_connected, if_neg other.not_slave] at hloop
  exact ⟨hdrop, hloop⟩

theorem infoLoop_slave (slave : SlaveLine) (hp : msg.drop p = slave.text ++ crlf ++ more) (fuel count : ℕ)
    (slaves : List RedisServerInfo) :
    msg.drop (p + slave.text.length + 2) = more ∧
    infoLoop msg (fuel + 1) p count slaves =
      if count ≤ slaves.length + 1 then some (slaves ++ [slave.address])
      else infoLoop msg fuel (p + slave.text.length + 2) count (slaves ++ [slave.address]) := by
  have hslave : ascii "slave" <+: slave.text := by
    simp only [SlaveLine.text, append_assoc]
    exact prefix_append _ _
  have hconnected : ¬ ascii "connected_slaves:" <+: slave.text := by
    intro hpre
    have hhead := prefix_of_prefix_length_le hslave hpre (by decide)
    exact absurd hhead (by decide)
  have hne : slave.text ≠ [] := by
    intro heq
    rw [heq] at hslave
    exact absurd hslave (by decide)
  obtain ⟨hdrop, hloop⟩ := infoLoop_line hp slave.text_open hne fuel count slaves
  rw [if_neg hconnected, if_pos hslave, slave.parseSlaveLine_text] at hloop
  exact ⟨hdrop, by simpa using hloop⟩

theorem isOpen_connected (n : ℕ) : IsOpen (ascii "connected_slaves:" ++ decimal n) := by
  intro b hb
  rcases mem_append.1 hb with hb | hb
  · exact isOpen_word (by decide) b hb
  · exact IsOpen.of_digits (isDigit_of_mem_decimal n) b hb

theorem infoLoop_connected {n : ℕ} (hn : n < 2 ^ 31)
    (hp : msg.drop p = (ascii "connected_slaves:" ++ decimal n) ++ crlf ++ more) (fuel count : ℕ)
    (slaves : List RedisServerInfo) :
    msg.drop (p + (ascii "connected_slaves:" ++ decimal n).length + 2) = more ∧
    infoLoop msg (fuel + 1) p count slaves =
      infoLoop msg fuel (p + (ascii "connected_slaves:" ++ decimal n).length + 2) n slaves := by
  have hvalue : parseSlavesCount (ascii "connected_slaves:" ++ decimal n ++ [13]) = n := by
    have hcr : (13 : UInt8) ∉ ascii "connected_slaves:" ++ decimal n := by
      simp only [mem_append, not_or]
      exact ⟨by decide, fun h => isDigit_ne (isDigit_of_mem_decimal n _ h) (by decide) rfl⟩
    have hfind : find (ascii "connected_slaves:" ++ decimal n ++ [13]) (ascii "\r") 0 =
        some (0 + (ascii "connected_slaves:" ++ decimal n).length) :=
      find_field (drop_zero ..) hcr
    have hstr : substr (ascii "connected_slaves:" ++ decimal n ++ [13]) (ascii "connected_slaves:").length
        (0 + (ascii "connected_slaves:" ++ decimal n).length - (ascii "connected_slaves:").length) =
          decimal n := by
      rw [substr, append_assoc, drop_left, length_append, Nat.zero_add, Nat.add_sub_cancel_left,
        take_left]
    simp only [parseSlavesCount, hfind, hstr, atoi_decimal hn]
    omega
  obtain ⟨hdrop, hloop⟩ := infoLoop_line hp (isOpen_connected n) (by simp [decimal_ne_nil]) fuel
    count slaves
  rw [if_pos (prefix_append _ _), hvalue] at hloop
  exact ⟨hdrop, hloop⟩

theorem infoLoop_lines (lines : List InfoLine) (hp : msg.drop p = joinLines (lines.map InfoLine.text))
    {fuel count : ℕ} {slaves : List RedisServerInfo}
    (hcount : count = slaves.length + (slaveLines lines).length) (hfuel : lines.length < fuel) :
    infoLoop msg fuel p count slaves = some (slaves ++ (slaveLines lines).map SlaveLine.address) := by
  induction lines generalizing p fuel slaves with
  | nil =>
    obtain ⟨fuel, rfl⟩ := Nat.exists_eq_succ_of_ne_zero hfuel.ne'
    rw [infoLoop_end hp]
    simp [slaveLines]
  | cons l lines ih =>
    obtain ⟨fuel, rfl⟩ := Nat.exists_eq_succ_of_ne_zero (Nat.ne_of_gt (Nat.zero_lt_of_lt hfuel))
    have hrest : lines.length < fuel := by simpa using hfuel
    cases l with
    | inr other =>
      obtain ⟨hdrop, hloop⟩ := infoLoop_other other hp fuel count slaves
      rw [hloop, slaveLines_inr]
      exact ih hdrop (by simpa using hcount) hrest
    | inl slave =>
      obtain ⟨hdrop, hloop⟩ := infoLoop_slave slave hp fuel count slaves
      rw [slaveLines_inl, length_cons] at hcount
      rw [hloop, slaveLines_inl, map_cons,
        append_cons slaves slave.address ((slaveLines lines).map SlaveLine.address)]
      split
      · -- no replica is left
        have hnil : slaveLines lines = [] := eq_nil_of_length_eq_zero (by omega)
        simp [hnil]
      · refine ih hdrop ?_ hrest
        rw [hcount, length_append, length_singleton]
        omega

theorem infoLoop_others (before : List OtherLine)
    (hp : msg.drop p = joinLines (before.map OtherLine.text) ++ more) (fuel count : ℕ)
    (slaves : List RedisServerInfo) :
    ∃ q, msg.drop q = more ∧
      infoLoop msg (fuel + before.length) p count slaves = infoLoop msg fuel q count slaves := by
  induction before generalizing p with
  | nil => exact ⟨p, hp, rfl⟩
  | cons other before ih =>
    have hp : msg.drop p = other.text ++ crlf ++ (joinLines (before.map OtherLine.text) ++ more) := by
      rw [hp]
      simp [joinLines]
    obtain ⟨hdrop, hloop⟩ := infoLoop_other other hp (fuel + before.length) count slaves
    obtain ⟨q, hq, heq⟩ := ih hdrop
    exact ⟨q, hq, hloop.trans heq⟩

end Loop

/-! ### The whole text -/

theorem infoText_eq (before : List OtherLine) (after : List InfoLine) :
    infoText before after = joinLines (before.map OtherLine.text) ++
      ((ascii "connected_slaves:" ++ decimal (slaveLines after).length) ++ crlf ++
        joinLines (after.map InfoLine.text)) := by
  simp [infoText, joinLines]

theorem zero_notMem_infoText (before : List OtherLine) (after : List InfoLine) : 0 ∉ infoText before after := by
  have hopen : ∀ line ∈ before.map OtherLine.text ++
      (ascii "connected_slaves:" ++ decimal (slaveLines after).length) :: after.map InfoLine.text,
      IsOpen line := by
    intro line hline
    rcases mem_append.1 hline with hline | hline
    · obtain ⟨other, -, rfl⟩ := mem_map.1 hline
      exact other.text_open
    rcases mem_cons.1 hline with rfl | hline
    · exact isOpen_connected _
    obtain ⟨l, -, rfl⟩ := mem_map.1 hline
    cases l with
    | inl slave => exact slave.text_open
    | inr other => exact other.text_open
  intro hmem
  obtain ⟨line, hline, hmem⟩ := mem_flatMap.1 hmem
  rcases mem_append.1 hmem with hmem | hmem
  · exact (hopen line hline 0 hmem).1 rfl
  · exact absurd hmem (by decide)

theorem lines_lt_infoText (before : List OtherLine) (after : List InfoLine) :
    before.length + after.length + 1 ≤ (infoText before after).length := by
  have hjoin : ∀ lines : List Bytes, lines.length ≤ (joinLines lines).length := by
    intro lines
    induction lines with
    | nil => exact Nat.zero_le _
    | cons line lines ih =>
      have hcons : joinLines (line :: lines) = line ++ crlf ++ joinLines lines := rfl
      rw [hcons, length_cons, length_append, length_append, length_crlf]
      omega
  have hlines := hjoin (before.map OtherLine.text ++
    (ascii "connected_slaves:" ++ decimal (slaveLines after).length) :: after.map InfoLine.text)
  rw [length_append, length_cons, length_map, length_map] at hlines
  exact hlines

theorem infoLoop_infoText (before : List OtherLine) (after : List InfoLine)
    (hlen : (infoText before after).length < 2 ^ 31) :
    infoLoop (infoText before after) ((infoText before after).length + 1) 0 0 [] =
      some ((slaveLines after).map SlaveLine.address) := by
  have hlines := lines_lt_infoText before after
  have hslaves : (slaveLines after).length ≤ after.length := length_filterMap_le _ _
  obtain ⟨fuel, hfuel⟩ : ∃ fuel, (infoText before after).length + 1 = fuel + 1 + before.length :=
    ⟨(infoText before after).length - before.length, by omega⟩
  obtain ⟨q, hq, hothers⟩ := infoLoop_others before ((drop_zero ..).trans (infoText_eq before after))
    (fuel + 1) 0 []
  obtain ⟨hdrop, hconnected⟩ := infoLoop_connected (n := (slaveLines after).length) (by omega) hq fuel
    0 []
  rw [hfuel, hothers, hconnected, infoLoop_lines after hdrop (by simp) (by omega), nil_append]

end GBDownLinker
