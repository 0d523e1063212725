/-
**Records that break off.**

In a record that has been cut short, an incomplete number sets `m_loadError`; but a string is read up to the next
zero byte, and behind the end of the value there is one that belongs to nobody.  `Follows` describes a function that
loads as a sequence of reads.
-/

import BackendProgramming.RedisRecv
import BackendProgramming.SerializeEntity

set_option autoImplicit false

namespace GBDownLinker

open CText Resp List

variable {α β : Type}

/-! ### Sequences of reads -/

inductive Follows : Load α → List Field → Prop where
  | pure (a : α) : Follows (pure a) []
  | plain {t : FieldType} {old v : t.Val} {f : t.Val → Load α} {fs : List Field}
      (h : ∀ v', Follows (f v') fs) : Follows (read t old >>= f) (⟨t, v, false⟩ :: fs)
  | steer {t : FieldType} {old v : t.Val} {f : t.Val → Load α} {fs : List Field}
      (h : Follows (f v) fs) : Follows (read t old >>= f) (⟨t, v, true⟩ :: fs)

variable {fs : List Field}

theorem Follows.bind {m : Load α} {g : α → Load β} {gs : List Field} (h : Follows m fs)
    (h' : ∀ a, Follows (g a) gs) : Follows (m >>= g) (fs ++ gs) := by
  induction h with
  | pure a =>
    rw [pure_bind]
    exact h' a
  | plain _ ih =>
    rw [bind_assoc]
    exact .plain fun v' => ih v'
  | steer _ ih =>
    rw [bind_assoc]
    exact .steer ih

theorem Follows.result {m : Load α} (h : Follows m fs) (g : α → β) :
    Follows (m >>= fun a => Pure.pure (g a)) fs := by
  have h' : Follows (m >>= fun a => Pure.pure (g a)) (fs ++ []) := h.bind fun a => .pure (g a)
  rwa [append_nil] at h'

variable {s' s : DBInStream}

theorem bind_eq_of_eq_some {m : Load α} {f : α → Load β} {a : α}
    (h : m s = some (a, s')) : (m >>= f) s = f a s' := by
  show (m s).bind (fun x => f x.1 x.2) = _
  rw [h]
  rfl

theorem exists_of_bind_eq_some {m : Load α} {f : α → Load β} {b : β}
    (h : (m >>= f) s = some (b, s')) : ∃ a s₁, m s = some (a, s₁) ∧ f a s₁ = some (b, s') := by
  obtain ⟨⟨a, s₁⟩, hm, hf⟩ := Option.bind_eq_some_iff.1 (show (m s).bind (fun x => f x.1 x.2) = _ from h)
  exact ⟨a, s₁, hm, hf⟩

theorem Follows.advance {m : Load α} {before : List Field} (h : Follows m (before ++ fs))
    (hahead : encodeAll before <+: s.ahead)
    (hlen : s.cursor + (encodeAll before).length ≤ s.datalen) :
    ∃ m', Follows m' fs ∧
      m s = m' { s with cursor := s.cursor + (encodeAll before).length } := by
  induction before generalizing m s with
  | nil => exact ⟨m, h, rfl⟩
  | cons f before ih =>
    obtain ⟨t, v, steers⟩ := f
    rw [encodeAll_cons] at hahead hlen
    rw [length_append] at hlen
    obtain ⟨rest, hrest⟩ := hahead
    have hread : ∀ old, read t old s =
        some (v, { s with cursor := s.cursor + (t.encode v).length }) := fun old =>
      reads_read t old v s ⟨encodeAll before ++ rest, by rw [← append_assoc, hrest]⟩ (by
        dsimp only at hlen
        omega)
    have hahead' : encodeAll before <+:
        ({ s with cursor := s.cursor + (t.encode v).length } : DBInStream).ahead := by
      refine ⟨rest, ?_⟩
      show _ = s.mem.drop (s.cursor + (t.encode v).length)
      rw [← drop_drop, ← DBInStream.ahead, ← hrest, append_assoc, drop_left]
    rw [encodeAll_cons, length_append]
    cases h with
    | plain h =>
      obtain ⟨m', hm', heq⟩ := ih (h v) hahead' (by dsimp only at hlen ⊢; omega)
      exact ⟨m', hm', by rw [bind_eq_of_eq_some (hread _), heq]; simp only [Nat.add_assoc]⟩
    | steer h =>
      obtain ⟨m', hm', heq⟩ := ih h hahead' (by dsimp only at hlen ⊢; omega)
      exact ⟨m', hm', by rw [bind_eq_of_eq_some (hread _), heq]; simp only [Nat.add_assoc]⟩

/-! ### Behind the cut -/

def Rejects (m : Load α) (value : Bytes) : Prop :=
  ∃ a s, m (DBInStream.ofReply value) = some (a, s) ∧ s.cursor ≤ value.length ∧ s.loadError = true

theorem read_number {t : FieldType} (old : t.Val) {w : ℕ} (ht : t.size = some w) (s : DBInStream) :
    ∃ v s', read t old s = some (v, s') ∧ s'.mem = s.mem ∧ s'.datalen = s.datalen ∧
      ((s.cursor + w ≤ s.datalen ∧ s'.cursor = s.cursor + w ∧ s'.loadError = s.loadError) ∨
        (s.datalen < s.cursor + w ∧ s'.cursor = s.cursor ∧ s'.loadError = true)) := by
  unfold read
  split
  · rename_i w' ht'
    obtain rfl : w' = w := Option.some.inj (ht'.symm.trans ht)
    split
    · rename_i hle
      exact ⟨_, _, rfl, rfl, rfl, .inl ⟨hle, rfl, rfl⟩⟩
    · rename_i hlt
      exact ⟨_, _, rfl, rfl, rfl, .inr ⟨by omega, rfl, rfl⟩⟩
  · rename_i ht'
    rw [ht] at ht'
    cases ht'

theorem read_string {old : FieldType.string.Val} {v : FieldType.string.Val}
    (h : read .string old s = some (v, s')) :
    s' = { s with cursor := s.cursor + (cstr s.ahead).length + 1 } := by
  unfold read at h
  split at h
  · rename_i w ht
    cases ht
  · split at h
    · exact (Prod.mk.inj (Option.some.inj h)).2.symm
    · cases h

theorem FieldType.exists_size {t : FieldType} (h : t ≠ .string) : ∃ w, t.size = some w := by
  cases t <;> first | exact absurd rfl h | exact ⟨_, rfl⟩

theorem Follows.numbers {m : Load α} (h : Follows m fs)
    (hfs : ∀ g ∈ fs, g.type ≠ .string ∧ g.steers = false)
    (hcursor : s.cursor ≤ s.datalen) :
    ∃ a s', m s = some (a, s') ∧ s'.cursor ≤ s.datalen ∧
      (s.loadError = true → s'.loadError = true) := by
  induction h generalizing s with
  | pure a => exact ⟨a, s, rfl, hcursor, id⟩
  | @plain t old v f fs h ih =>
    obtain ⟨w, ht⟩ := FieldType.exists_size (hfs _ mem_cons_self).1
    obtain ⟨v', s₁, hread, -, hlen, hcases⟩ := read_number old ht s
    have hcursor₁ : s₁.cursor ≤ s₁.datalen := by omega
    obtain ⟨a, s', heq, hle, herr⟩ :=
      ih v' (fun g hg => hfs g (mem_cons_of_mem _ hg)) hcursor₁
    refine ⟨a, s', by rw [bind_eq_of_eq_some hread, heq], hlen ▸ hle, fun he => herr ?_⟩
    rcases hcases with ⟨-, -, h₁⟩ | ⟨-, -, h₁⟩
    · rw [h₁, he]
    · exact h₁
  | steer _ _ => exact absurd (hfs _ mem_cons_self).2 (by simp)

theorem Follows.cursor_le {m : Load α} (h : Follows m fs)
    (hfs : ∀ g ∈ fs, g.steers = false) {a : α} (heq : m s = some (a, s')) :
    s.cursor ≤ s'.cursor := by
  induction h generalizing s with
  | pure a =>
    obtain ⟨-, rfl⟩ := Prod.mk.inj (Option.some.inj heq)
    exact le_rfl
  | @plain t old v f fs h ih =>
    obtain ⟨v', s₁, hread, hrest⟩ := exists_of_bind_eq_some heq
    have hle := ih v' (fun g hg => hfs g (mem_cons_of_mem _ hg)) hrest
    by_cases ht : t = .string
    · subst ht
      rw [read_string hread] at hle
      dsimp only at hle
      omega
    · obtain ⟨w, ht⟩ := FieldType.exists_size ht
      obtain ⟨v'', s₂, hread', -, -, hcases⟩ := read_number old ht s
      obtain ⟨-, rfl⟩ := Prod.mk.inj (Option.some.inj (hread.symm.trans hread'))
      omega
  | steer _ _ => exact absurd (hfs _ mem_cons_self) (by simp)

def DBInStream.Left (s : DBInStream) (left : Bytes) : Prop :=
  s.ahead = left ++ [0] ∧ s.cursor + left.length = s.datalen

theorem DBInStream.Left.of_number {left : Bytes} {w : ℕ} (h : s.Left left)
    (hmem : s'.mem = s.mem) (hlen : s'.datalen = s.datalen)
    (hcases : (s.cursor + w ≤ s.datalen ∧ s'.cursor = s.cursor + w ∧ s'.loadError = s.loadError) ∨
      (s.datalen < s.cursor + w ∧ s'.cursor = s.cursor ∧ s'.loadError = true)) :
    ∃ k, s'.Left (left.drop k) := by
  obtain ⟨hahead, hend⟩ := h
  rcases hcases with ⟨hle, hcur, -⟩ | ⟨-, hcur, -⟩
  · refine ⟨w, ?_, by rw [hcur, hlen, length_drop]; omega⟩
    rw [DBInStream.ahead, hmem, hcur, ← drop_drop, ← DBInStream.ahead, hahead,
      drop_append_of_le_length (by omega)]
  · exact ⟨0, by rw [DBInStream.ahead, hmem, hcur]; exact hahead, by rw [hcur, hlen]; exact hend⟩

theorem Follows.passes_end {m : Load α} (h : Follows m fs)
    (hfs : ∀ g ∈ fs, g.steers = false) (hstring : ∃ g ∈ fs, g.type = .string)
    {left : Bytes} (hleft : s.Left left) (hzero : 0 ∉ left) {a : α} (heq : m s = some (a, s')) :
    s.datalen < s'.cursor := by
  induction h generalizing s left with
  | pure a =>
    obtain ⟨g, hg, -⟩ := hstring
    cases hg
  | @plain t old v f fs h ih =>
    have hrest : ∀ g ∈ fs, g.steers = false := fun g hg => hfs g (mem_cons_of_mem _ hg)
    obtain ⟨v', s₁, hread, heq'⟩ := exists_of_bind_eq_some heq
    by_cases ht : t = .string
    · subst ht
      have hle := (h v').cursor_le hrest heq'
      rw [read_string hread, hleft.1, cstr_append hzero] at hle
      have hend := hleft.2
      dsimp only at hle
      omega
    · -- a number may take some of the bytes that are left
      obtain ⟨w, hw⟩ := FieldType.exists_size ht
      obtain ⟨v'', s₂, hread', hmem, hlen, hcases⟩ := read_number old hw s
      obtain ⟨-, rfl⟩ := Prod.mk.inj (Option.some.inj (hread.symm.trans hread'))
      obtain ⟨k, hleft'⟩ := hleft.of_number hmem hlen hcases
      rw [← hlen]
      refine ih v' hrest ?_ hleft' (fun hm => hzero (mem_of_mem_drop hm)) heq'
      obtain ⟨g, hg, hgs⟩ := hstring
      rcases mem_cons.1 hg with rfl | hg
      · exact absurd hgs ht
      · exact ⟨g, hg, hgs⟩
  | steer _ _ => exact absurd (hfs _ mem_cons_self) (by simp)

section Cut

variable {m : Load α} {before after : List Field} {f : Field}

theorem Follows.cut (h : Follows m (before ++ f :: after)) (left : Bytes) :
    ∃ m' s, Follows m' (f :: after) ∧
      m (DBInStream.ofReply (encodeAll before ++ left)) = m' s ∧ s.Left left ∧
      s.datalen = (encodeAll before ++ left).length := by
  obtain ⟨m', hm', heq⟩ := h.advance
    (s := DBInStream.ofReply (encodeAll before ++ left))
    ⟨left ++ [0], by simp [DBInStream.ofReply, DBInStream.ahead]⟩ (by simp [DBInStream.ofReply])
  refine ⟨m', _, hm', heq, ⟨?_, ?_⟩, rfl⟩
  · simp [DBInStream.ofReply, DBInStream.ahead]
  · simp [DBInStream.ofReply]

theorem rejects_of_numbers (h : Follows m (before ++ f :: after)) {left : Bytes}
    (hlt : left.length < (f.type.encode f.value).length)
    (hfs : ∀ g ∈ f :: after, g.type ≠ .string ∧ g.steers = false) :
    Rejects m (encodeAll before ++ left) := by
  obtain ⟨m', s, hm', heq, hleft, hdatalen⟩ := h.cut left
  have hafter : ∀ g ∈ after, g.type ≠ .string ∧ g.steers = false :=
    fun g hg => hfs g (mem_cons_of_mem _ hg)
  obtain ⟨w, hw⟩ := FieldType.exists_size (hfs f mem_cons_self).1
  cases hm' with
  | @plain t old v g _ hg =>
    -- the number at the cut is not complete
    obtain ⟨v', s₁, hread, -, hlen, hcases⟩ := read_number old hw s
    have hsize : left.length < w := by
      simp only [FieldType.encode, hw] at hlt
      rwa [v.length_eq hw] at hlt
    have hend := hleft.2
    rcases hcases with ⟨hle, -⟩ | ⟨-, hcur, herr⟩
    · omega
    · obtain ⟨a, s', heq', hle, herr'⟩ := (hg v').numbers hafter (s := s₁) (by omega)
      refine ⟨a, s', by rw [heq, bind_eq_of_eq_some hread, heq'], ?_, herr' herr⟩
      omega
  | steer _ => exact absurd (hfs _ mem_cons_self).2 (by simp)

theorem not_rejects_of_string (h : Follows m (before ++ f :: after)) {left : Bytes}
    (hzero : 0 ∉ left) (hfs : ∀ g ∈ f :: after, g.steers = false) (hstring : ∃ g ∈ f :: after, g.type = .string) :
    ¬ Rejects m (encodeAll before ++ left) := by
  rintro ⟨a, s', hload, hcursor, -⟩
  obtain ⟨m', s, hm', heq, hleft, hdatalen⟩ := h.cut left
  have hlt := hm'.passes_end hfs hstring hleft hzero (heq.symm.trans hload)
  omega

end Cut

/-! ### The records as sequences of reads -/

theorem Channel.follows_load {T : ChannelTypes} (channel old : Channel T) (status : Code) :
    Follows (load old status) channel.fields := by
  unfold load fields
  repeat refine .plain fun _ => ?_
  exact .pure _

theorem follows_loadtime (time : Option Tm) (flag : Code) (old : Tm) :
    Follows (loadtime flag old) (timeFields time) := by
  cases time with
  | none => exact .steer (.pure none)
  | some time =>
    refine .steer ?_
    rw [if_neg (by decide), if_pos rfl]
    repeat refine .plain fun _ => ?_
    exact .pure _

theorem follows_loadIds (list : List ChannelIds) : Follows (loadIds list.length) (idsFields list) := by
  induction list with
  | nil => exact .pure []
  | cons ids rest ih => exact .plain fun _ => .plain fun _ => ih.result _

theorem follows_loadchannellist (channellist : Option (List ChannelIds))
    (old : FieldType.uint32.Val) (h : (channellist.getD []).length < 2 ^ 32) :
    Follows (loadchannellist old) (channellistFields channellist) := by
  refine .steer ?_
  rw [toNat_uint32Of h]
  exact (follows_loadIds _).result _

theorem Device.follows_load {T : DeviceTypes} (device old : Device T) (locals : DeviceLocals)
    (h : (device.channelList.getD []).length < 2 ^ 32) : Follows (load old locals) device.fields := by
  unfold load fields
  repeat refine .plain fun _ => ?_
  refine (follows_loadtime _ _ _).bind fun _ => ?_
  repeat refine .plain fun _ => ?_
  exact (follows_loadchannellist _ locals.channelSize h).result _

theorem Operation.follows_load {T : InviteTypes} (operation old : Operation T)
    (locals : InviteLocals T) :
    Follows (old.load (T.code operation.cmdType) locals) operation.fields := by
  unfold load
  rw [T.typeOf_code]
  cases operation with
  | liveStream state info =>
    refine .plain fun _ => Follows.result ?_ _
    unfold LiveStream.load LiveStream.fields
    repeat refine .plain fun _ => ?_
    exact .pure _
  | recordPlayback state info =>
    refine .plain fun _ => Follows.result ?_ _
    unfold RecordPlayback.load RecordPlayback.fields
    repeat refine .plain fun _ => ?_
    exact .pure _
  | recordDownload state info =>
    refine .plain fun _ => Follows.result ?_ _
    unfold RecordDownload.load RecordDownload.fields
    repeat refine .plain fun _ => ?_
    exact .pure _
  | voiceBroadcast state => exact .plain fun _ => .pure _

theorem ExecutingInviteCmd.follows_load {T : InviteTypes} (cmd old : ExecutingInviteCmd T)
    (locals : InviteLocals T) : Follows (load old locals) cmd.fields := by
  unfold load fields
  refine .plain fun _ => .plain fun _ => .steer (.plain fun _ => ?_)
  refine (cmd.operation.follows_load _ _).bind fun _ => ?_
  repeat refine .plain fun _ => ?_
  exact .pure _

variable {T : EntityTypes}

theorem Record.follows_load {x : Record T} {target : Target T} (hsuits : x.Suits target)
    (hsize : x.encode.length ≤ 2 ^ 30) : Follows target.load x.fields := by
  cases x with
  | device d =>
    cases target with
    | device old locals =>
      have hlist : (d.channelList.getD []).length < 2 ^ 32 := by
        have hle : (d.channelList.getD []).length ≤ 2 ^ 30 := d.length_channelList_le.trans hsize
        omega
      exact (d.follows_load old locals hlist).result _
    | channel _ _ => exact hsuits.elim
    | invite _ _ => exact hsuits.elim
  | channel c =>
    cases target with
    | channel old status => exact (c.follows_load old status).result _
    | device _ _ => exact hsuits.elim
    | invite _ _ => exact hsuits.elim
  | invite cmd =>
    cases target with
    | invite old locals => exact (cmd.follows_load old locals).result _
    | device _ _ => exact hsuits.elim
    | channel _ _ => exact hsuits.elim

/-! ### Cut records -/

theorem exists_cut {b : Bytes} (hb : b <+: encodeAll fs) (hne : b ≠ encodeAll fs) :
    ∃ before f after left, fs = before ++ f :: after ∧ b = encodeAll before ++ left ∧
      left <+: f.type.encode f.value ∧ left.length < (f.type.encode f.value).length := by
  induction fs generalizing b with
  | nil => exact absurd (List.prefix_nil.1 hb) hne
  | cons f fs ih =>
    rw [encodeAll_cons] at hb hne
    by_cases hlt : b.length < (f.type.encode f.value).length
    · exact ⟨[], f, fs, b, rfl, rfl,
        prefix_of_prefix_length_le hb (prefix_append _ _) hlt.le, hlt⟩
    · obtain ⟨b', rfl⟩ : f.type.encode f.value <+: b :=
        prefix_of_prefix_length_le (prefix_append _ _) hb (by omega)
      obtain ⟨before, g, after, left, rfl, rfl, hleft, hlen⟩ :=
        ih ((prefix_append_right_inj _).1 hb) (fun h => hne (by rw [h]))
      exact ⟨f :: before, g, after, left, rfl, by rw [encodeAll_cons, append_assoc], hleft, hlen⟩

def parseGetSerialReply (target : Target T) (replyInfo : RedisReplyInfo) : Option (Option (Record T)) :=
  if replyInfo.replyType ≠ .string then some none
  else
    match replyInfo.arrayList with
    | [] => some none
    | e :: _ =>
      if e.replyType = .nil then some none
      else (target.load (DBInStream.ofReply (e.arrayValue.getD []))).map fun (x, s) =>
        if s.loadError then none else some x

def valueReply (b : Bytes) : RedisReplyInfo := replyInfo (.single (.bulk (decimal b.length) b))

theorem parseGetSerialReply_of_rejects {target : Target T} {b : Bytes} (h : Rejects target.load b) :
    parseGetSerialReply target (valueReply b) = some none := by
  obtain ⟨x, s, hload, -, herr⟩ := h
  have heq : parseGetSerialReply target (valueReply b) =
      (target.load (DBInStream.ofReply b)).map fun (x, s) => if s.loadError then none else some x := rfl
  rw [heq, hload]
  simp [herr]

theorem safeFrom_single {len b : Bytes} {c : ℕ} {reads : List Bytes} (h : c + reads.flatten.length < 2 ^ 30) :
    SafeFrom (.single (.bulk len b)) c reads := by
  induction reads generalizing c with
  | nil => trivial
  | cons d ds ih =>
    rw [flatten_cons, length_append] at h
    refine ⟨fun pre e es hel => ?_, ih (by omega)⟩
    have he : e ∈ [Element.bulk len b] := by
      rw [show [Element.bulk len b] = pre ++ e :: es from hel]
      simp
    rw [mem_singleton.1 he]
    exact .inr (.inr (by omega))

end GBDownLinker
