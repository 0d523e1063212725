/-
**Commands on the wire come back as their parameters.**

`createRedisCommand` writes a reply of the grammar of `Resp` all of whose elements are bulk strings, so the only
harm a cut can do is to let the receive buffer overflow.
-/

import BackendProgramming.RedisRecv

set_option autoImplicit false

namespace GBDownLinker

open CText Resp List Option

def paramElement (p : Bytes) : Element := .bulk (decimal p.length) p

def commandReply (params : List Bytes) : Reply :=
  .array (decimal params.length) (params.map paramElement)

def paramInfo (p : Bytes) : ReplyArrayInfo := ⟨.string, some p, p.length⟩

theorem intText_toInt32 {n : ℕ} (h : n < 2 ^ 31) : intText (toInt32 n) = decimal n := by
  rw [toInt32_eq (by omega) (by omega), intText, if_neg (by omega), Int.natAbs_natCast]

theorem createRedisCommand_eq {params : List Bytes} (hne : params ≠ []) (hnum : params.length < 2 ^ 31)
    (hsize : ∀ p ∈ params, p.length < 2 ^ 31) :
    createRedisCommand params = some (commandReply params).encode := by
  have hparas : params.flatMap encodePara = encodes (params.map paramElement) := by
    rw [encodes, flatMap_map]
    refine flatMap_congr fun p hp => ?_
    rw [encodePara, intText_toInt32 (hsize p hp)]
    simp [paramElement, Element.encode]
  rw [createRedisCommand, if_neg (by simpa using hne), hparas, intText_toInt32 hnum]
  simp [commandReply, Reply.encode]

theorem length_flatMap_encodePara (params : List Bytes) :
    params.length ≤ (params.flatMap encodePara).length ∧
      ∀ p ∈ params, p.length ≤ (params.flatMap encodePara).length := by
  induction params with
  | nil => simp
  | cons q params ih =>
    have hq : q.length + 1 ≤ (encodePara q).length := by
      rw [encodePara, length_cons, length_append, length_append]
      omega
    rw [flatMap_cons, length_append, length_cons]
    refine ⟨by omega, fun p hp => ?_⟩
    rcases mem_cons.1 hp with rfl | hp
    · omega
    · have := ih.2 p hp
      omega

theorem length_createRedisCommand {params : List Bytes} {cmd : Bytes}
    (h : createRedisCommand params = some cmd) :
    params.length ≤ cmd.length ∧ ∀ p ∈ params, p.length ≤ cmd.length := by
  obtain ⟨hnum, hsize⟩ := length_flatMap_encodePara params
  have hle : (params.flatMap encodePara).length ≤ cmd.length := by
    rw [createRedisCommand] at h
    split at h
    · cases h
    · rw [← some.inj h, length_append]
      omega
  exact ⟨by omega, fun p hp => (hsize p hp).trans hle⟩

theorem commandReply_wellFormed {params : List Bytes} (hnum : params.length < 2 ^ 31)
    (hsize : ∀ p ∈ params, p.length < 2 ^ 31) : (commandReply params).WellFormed := by
  refine ⟨by simpa using isLenText_decimal hnum, fun e he => ?_⟩
  obtain ⟨p, hp, rfl⟩ := mem_map.1 he
  exact isLenText_decimal (hsize p hp)

theorem commandReply_colonLines (params : List Bytes) : (commandReply params).ColonLines := by
  intro σ text h
  obtain ⟨p, -, hp⟩ := mem_map.1 h
  simp [paramElement] at hp

theorem replyInfo_commandReply (params : List Bytes) : replyInfo (commandReply params) =
    { replyType := .array, arrayList := params.map paramInfo } := by
  simp [commandReply, replyInfo, Function.comp_def, paramElement, elementInfo, paramInfo]

theorem safeFrom_commandReply (params : List Bytes) {n : ℕ} (hn : n < 2 ^ 30) (reads : List Bytes)
    (c : ℕ) (hc : c + reads.flatten.length ≤ n) : SafeFrom (commandReply params) c reads := by
  induction reads generalizing c with
  | nil => trivial
  | cons d ds ih =>
    simp only [flatten_cons, length_append] at hc
    refine ⟨fun pre e es hel => ?_, ih _ (by omega)⟩
    obtain ⟨p, -, rfl⟩ : ∃ p ∈ params, paramElement p = e := by
      refine mem_map.1 (show e ∈ (commandReply params).elements from ?_)
      simp [hel]
    exact Or.inr (Or.inr (by omega))

theorem recv_createRedisCommand (params : List Bytes) (hne : params ≠ []) :
    ∃ cmd, createRedisCommand params = some cmd ∧
      (cmd.length < 2 ^ 30 → ∀ reads : List Bytes, (∀ d ∈ reads, IsRead d) → reads.flatten = cmd →
        recv reads = some (true, { replyType := .array, arrayList := params.map paramInfo }, [])) := by
  obtain ⟨cmd, hcmd⟩ : ∃ cmd, createRedisCommand params = some cmd := by
    rw [createRedisCommand, if_neg (by simpa using hne)]
    exact ⟨_, rfl⟩
  refine ⟨cmd, hcmd, fun hlt reads hreads hsplit => ?_⟩
  obtain ⟨hnum, hsize⟩ := length_createRedisCommand hcmd
  have hsize' : ∀ p ∈ params, p.length < 2 ^ 31 := fun p hp => by
    have := hsize p hp
    omega
  have henc := createRedisCommand_eq hne (by omega) hsize'
  obtain rfl : cmd = (commandReply params).encode := some.inj (hcmd.symm.trans henc)
  rw [← replyInfo_commandReply]
  have hrecv := recv_safe (commandReply_wellFormed (by omega) hsize') (commandReply_colonLines params)
    (by simp [Reply.text, commandReply]) (by omega) reads hreads hsplit []
  rw [append_nil] at hrecv
  refine hrecv.1 ?_
  exact safeFrom_commandReply params hlt reads 0 (by rw [hsplit]; omega)

theorem recv_createRedisCommand_binary :
    ∃ cmd, createRedisCommand [[13, 10, 0]] = some cmd ∧
      (cmd.length < 2 ^ 30 → ∀ reads : List Bytes, (∀ d ∈ reads, IsRead d) → reads.flatten = cmd →
        recv reads = some (true,
          { replyType := .array, arrayList := [⟨.string, some [13, 10, 0], 3⟩] }, [])) :=
  recv_createRedisCommand [[13, 10, 0]] (by decide)

theorem flatten_map_singleton (a : Bytes) : (a.map fun x => [x]).flatten = a := by
  induction a with
  | nil => rfl
  | cons x a ih => rw [map_cons, flatten_cons, ih, singleton_append]

theorem SafeFrom.last {r : Reply} {d : Bytes} (ds : List Bytes) {c : ℕ}
    (h : SafeFrom r c (ds ++ [d])) : SafeAt r (c + ds.flatten.length) d.length := by
  induction ds generalizing c with
  | nil => exact h.1
  | cons x ds ih =>
    rw [flatten_cons, length_append, ← Nat.add_assoc]
    exact ih h.2

theorem recv_long_parameter :
    ∃ (p cmd : Bytes) (reads : List Bytes), p.length = 2 ^ 30 - 1 ∧
      createRedisCommand [p] = some cmd ∧ (∀ d ∈ reads, IsRead d) ∧ reads.flatten = cmd ∧
      (recv reads).map (fun x => x.2.1) ≠
        some { replyType := .array, arrayList := [paramInfo p] } := by
  obtain ⟨p, hp⟩ : ∃ p : Bytes, p.length = 2 ^ 30 - 1 :=
    ⟨replicate (2 ^ 30 - 1) 0, length_replicate⟩
  have hone : ∀ q ∈ [p], q.length < 2 ^ 31 := fun q hq => by
    rw [mem_singleton.1 hq, hp]
    omega
  have hcmd := createRedisCommand_eq (cons_ne_nil p []) (by simp) hone
  have hdec : (decimal p.length).length ≤ 10 := length_decimal_le (by decide) (by omega)
  obtain ⟨T, hT⟩ : ∃ T, T = (commandReply [p]).encode.length := ⟨_, rfl⟩
  have hlen : T = (commandReply [p]).headLen + (decimal p.length).length + p.length + 5 := by
    have h₁ := Reply.length_encode
      (show (commandReply [p]).elements = [] ++ paramElement p :: [] from rfl)
    have h₂ := Element.length_encode_bulk (decimal p.length) p
    simp only [encodes_nil, length_nil, paramElement] at h₁
    omega
  have hhead : (commandReply [p]).headLen ≤ 4 := by
    have := length_decimal_le (n := 1) (k := 1) (by decide) (by decide)
    exact Nat.add_le_add_right this 3
  -- single bytes up to the last 4095, which come in one read
  obtain ⟨a, b, hab, hb⟩ : ∃ a b, (commandReply [p]).encode = a ++ b ∧ b.length = 4095 :=
    ⟨_, _, (take_append_drop (T - 4095) _).symm, by rw [length_drop]; omega⟩
  have ha : a.length + 4095 = T := by
    rw [hT, hab, length_append, hb]
  have hflat := flatten_map_singleton a
  have hreads : ∀ d ∈ (a.map fun x => [x]) ++ [b], IsRead d := by
    intro d hd
    rcases mem_append.1 hd with hd | hd
    · obtain ⟨x, -, rfl⟩ := mem_map.1 hd
      exact ⟨by simp, by simp [readBuffSize]⟩
    · rw [mem_singleton.1 hd]
      exact ⟨ne_nil_of_length_pos (by omega), by rw [hb]; decide⟩
  have hsplit : ((a.map fun x => [x]) ++ [b]).flatten = (commandReply [p]).encode := by
    rw [flatten_append, hflat, hab]
    simp
  refine ⟨p, _, _, hp, hcmd, hreads, hsplit, ?_⟩
  rw [show [paramInfo p] = [p].map paramInfo from rfl, ← replyInfo_commandReply]
  have hrecv := recv_safe (commandReply_wellFormed (by simp) hone) (commandReply_colonLines _)
    (by simp [Reply.text, commandReply]) (by omega) _ hreads hsplit []
  rw [append_nil] at hrecv
  refine hrecv.2 fun hsafe => ?_
  have hcut := hsafe.last _ [] (paramElement p) [] rfl
  rw [hflat, hb] at hcut
  simp only [paramElement, cutOk, encodes_nil, length_nil] at hcut
  omega

end GBDownLinker
