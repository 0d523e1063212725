/-
**Cleaning up before the data is loaded.**

`PrepareLoadData` deletes the channels whose device has no key, and the invite commands of workers that do not
exist or about no channel that is left.  When `getKeys` fails, the list is empty: if the devices cannot be
listed, every channel and every invite command is deleted.
-/

import BackendProgramming.RestorerStatus

set_option autoImplicit false

namespace GBDownLinker

open CText StdString List

variable {T : EntityTypes}

/-! ### Ids from keys -/

def parseChannelKey (key : Bytes) : Bytes × Bytes :=
  match findLastOf 58 key with
  | none => ([], [])
  | some pos =>
    let channelDeviceId := key.drop (pos + 1)
    match rfindBefore 58 key pos with
    | none => ([], channelDeviceId)
    | some pos2 => (substr key (pos2 + 1) (pos - (pos2 + 1)), channelDeviceId)

def parseInviteKey (workerThreadIdx : ℤ) (key : Bytes) : ℤ × Bytes :=
  match findLastOf 58 key with
  | none => (workerThreadIdx, [])
  | some pos1 =>
    match rfindBefore 58 key pos1 with
    | none => (workerThreadIdx, [])
    | some pos2 =>
      let deviceId := substr key (pos2 + 1) (pos1 - (pos2 + 1))
      match rfindBefore 58 key pos2 with
      | none => (workerThreadIdx, deviceId)
      | some pos3 =>
        match rfindBefore 58 key pos3 with
        | none => (workerThreadIdx, deviceId)
        | some pos4 => (atoi (substr key (pos4 + 1) (pos3 - (pos4 + 1))), deviceId)

def compareChannelDeviceId (deviceKey channelKeyDeviceId : Bytes) : Bool :=
  match findLastOf 58 deviceKey with
  | none => false
  | some pos => deviceKey.drop (pos + 1) = channelKeyDeviceId

/-! ### The function -/

structure Heard where
  devices : Bool := true
  channels : Bool := true
  invites : Bool := true

def listing (heard : Bool) (start : Bytes) (s : Store T) : List Bytes :=
  if heard then keysFrom start s else []

def dropChannels (deviceKeyList : List Bytes) : List Bytes → Store T → Store T × List Bytes
  | [], s => (s, [])
  | key :: keys, s =>
    let (deviceId, channelDeviceId) := parseChannelKey key
    if deviceKeyList.any (compareChannelDeviceId · deviceId) then
      let (s, ids) := dropChannels deviceKeyList keys s
      (s, channelDeviceId :: ids)
    else dropChannels deviceKeyList keys (s.erase key)

def dropInvites (uninit n : ℤ) (channelDeviceIds : List Bytes) : List Bytes → Store T → Store T
  | [], s => s
  | key :: keys, s =>
    let (workerThreadIdx, deviceId) := parseInviteKey uninit key
    if n ≤ workerThreadIdx then dropInvites uninit n channelDeviceIds keys (s.erase key)
    else if !channelDeviceIds.contains deviceId then
      dropInvites uninit n channelDeviceIds keys (s.erase key)
    else dropInvites uninit n channelDeviceIds keys s

def prepareLoadData (started needClearBackupData : Bool) (workStatus : RestorerWorkStatus)
    (heard : Heard) (uninit : ℤ) (g : Bytes) (n : ℤ) (s : Store T) : ℤ × Store T :=
  if !started then (1, s)
  else if needClearBackupData then (0, applyAll s (StatusMachine.clearBackupData g n.toNat))
  else if workStatus ≠ .normal then (0, s)
  else
    let deviceKeyList := listing heard.devices (deviceMark ++ g) s
    let channelKeyList := listing heard.channels (channelMark ++ g) s
    let (s, channelDeviceIds) := dropChannels deviceKeyList channelKeyList s
    let inviteKeyList := listing heard.invites (inviteMark ++ g) s
    (0, dropInvites uninit n channelDeviceIds inviteKeyList s)

/-! ### What should be left -/

def Written (s : Store T) : Prop :=
  ∀ key ∈ s, ∃ e : Entry T, e.Clean ∧ e.key = key ∧
    ∀ g w cmd, e = .invite g w cmd → -2 ^ 31 ≤ w ∧ w < 2 ^ 31

def Entry.downlinker : Entry T → Bytes
  | .device g _ => g
  | .channel g _ => g
  | .invite g _ _ => g

def Apart (s : Store T) (g : Bytes) : Prop :=
  ∀ e : Entry T, e.Clean → e.key ∈ s → g <+: e.downlinker → e.downlinker = g

def ChannelIntact (s : Store T) (g d : Bytes) : Prop := deviceKey g d ∈ s

def InviteIntact (s : Store T) (g : Bytes) (n w : ℤ) (x : Bytes) : Prop :=
  w < n ∧ ∃ d, 58 ∉ d ∧ channelKey g d x ∈ s ∧ ChannelIntact s g d

structure Cleaned (s s' : Store T) (g : Bytes) (n : ℤ) : Prop where
  devices : ∀ d, 58 ∉ d → (deviceKey g d ∈ s' ↔ deviceKey g d ∈ s)
  channels : ∀ d c, 58 ∉ d → 58 ∉ c →
    (channelKey g d c ∈ s' ↔ channelKey g d c ∈ s ∧ deviceKey g d ∈ s)
  invites : ∀ w a x q, 58 ∉ a → 58 ∉ x → (inviteKey g w a x q ∈ s' ↔
    inviteKey g w a x q ∈ s ∧ w < n ∧ ∃ d, 58 ∉ d ∧ channelKey g d x ∈ s')

def Harmless (heard : Heard) (s : Store T) (g : Bytes) (n : ℤ) : Prop :=
  if heard.channels then
    (heard.devices = true ∨
      ∀ d c, 58 ∉ d → 58 ∉ c → channelKey g d c ∈ s → ¬ ChannelIntact s g d) ∧
    (heard.invites = true ∨
      ∀ w a x q, 58 ∉ a → 58 ∉ x → inviteKey g w a x q ∈ s → InviteIntact s g n w x)
  else
    (∀ d c, 58 ∉ d → 58 ∉ c → channelKey g d c ∈ s → ChannelIntact s g d) ∧
    ∀ w a x q, 58 ∉ a → 58 ∉ x → inviteKey g w a x q ∈ s →
      (InviteIntact s g n w x ↔ heard.invites = false)

/-! ### Parsing -/

theorem channelKey_eq (g d c : Bytes) : channelKey g d c = channelMark ++ g ++ 58 :: (d ++ 58 :: c) := by
  simp [channelKey, colon_eq]

theorem deviceKey_eq (g d : Bytes) : deviceKey g d = deviceMark ++ g ++ 58 :: d := by
  simp [deviceKey, colon_eq]

theorem inviteKey_eq (g : Bytes) (w : ℤ) (a x : Bytes) (q : ℤ) : inviteKey g w a x q =
    inviteMark ++ g ++ 58 :: (intText w ++ 58 :: (a ++ 58 :: (x ++ 58 :: intText q))) := by
  simp [inviteKey, colon_eq]

theorem compareChannelDeviceId_deviceKey {g d : Bytes} (hd : 58 ∉ d) (d' : Bytes) :
    compareChannelDeviceId (deviceKey g d) d' = true ↔ d = d' := by
  rw [deviceKey_eq]
  simp only [compareChannelDeviceId, findLastOf_field hd, drop_separator, decide_eq_true_eq]

theorem parseChannelKey_channelKey {g d c : Bytes} (hd : 58 ∉ d) (hc : 58 ∉ c) :
    parseChannelKey (channelKey g d c) = (d, c) := by
  rw [channelKey_eq]
  set a := channelMark ++ g
  have hend : a ++ 58 :: (d ++ 58 :: c) = (a ++ 58 :: d) ++ 58 :: c := by simp
  have hpos : (a ++ 58 :: d).length = a.length + 1 + d.length := by
    simp only [length_append, length_cons]
    omega
  have hlast : findLastOf 58 (a ++ 58 :: (d ++ 58 :: c)) = some (a.length + 1 + d.length) := by
    rw [hend, findLastOf_field hc, hpos]
  have hdrop : (a ++ 58 :: (d ++ 58 :: c)).drop (a.length + 1 + d.length + 1) = c := by
    rw [hend, ← hpos, drop_separator]
  simp only [parseChannelKey, hlast, rfindBefore_field hd, hdrop, substr_between]

theorem parseInviteKey_inviteKey {g a x : Bytes} {w q : ℤ} (ha : 58 ∉ a) (hx : 58 ∉ x)
    (h₀ : -2 ^ 31 ≤ w) (h₁ : w < 2 ^ 31) (uninit : ℤ) :
    parseInviteKey uninit (inviteKey g w a x q) = (w, x) := by
  -- the text before each of the last four colons
  let p4 := inviteMark ++ g
  let p3 := p4 ++ 58 :: intText w
  let p2 := p3 ++ 58 :: a
  let p1 := p2 ++ 58 :: x
  have hkey1 : inviteKey g w a x q = p1 ++ 58 :: intText q := by
    simp [inviteKey_eq, p1, p2, p3, p4]
  have hkey2 : inviteKey g w a x q = p2 ++ 58 :: (x ++ 58 :: intText q) := by
    simp [hkey1, p1]
  have hkey3 : inviteKey g w a x q = p3 ++ 58 :: (a ++ 58 :: (x ++ 58 :: intText q)) := by
    simp [hkey2, p2]
  have hkey4 : inviteKey g w a x q =
      p4 ++ 58 :: (intText w ++ 58 :: (a ++ 58 :: (x ++ 58 :: intText q))) := by
    simp [hkey3, p3]
  have hlen : ∀ p f : Bytes, (p ++ 58 :: f).length = p.length + 1 + f.length := by
    intro p f
    rw [length_append, length_cons]
    omega
  have hpos1 : findLastOf 58 (inviteKey g w a x q) = some (p2.length + 1 + x.length) := by
    rw [hkey1, findLastOf_field (colon_notMem_intText q), hlen]
  have hpos2 : rfindBefore 58 (inviteKey g w a x q) (p2.length + 1 + x.length) = some p2.length := by
    rw [hkey2, rfindBefore_field hx]
  have hpos3 : rfindBefore 58 (inviteKey g w a x q) p2.length = some p3.length := by
    rw [hkey3, hlen, rfindBefore_field ha]
  have hpos4 : rfindBefore 58 (inviteKey g w a x q) p3.length = some p4.length := by
    rw [hkey4, hlen, rfindBefore_field (colon_notMem_intText w)]
  have hdevice : substr (inviteKey g w a x q) (p2.length + 1) (p2.length + 1 + x.length - (p2.length + 1)) =
      x := by
    rw [hkey2, substr_between]
  have hworker : substr (inviteKey g w a x q) (p4.length + 1) (p3.length - (p4.length + 1)) =
      intText w := by
    rw [hkey4, hlen, substr_between]
  simp only [parseInviteKey, hpos1, hpos2, hpos3, hpos4, hdevice, hworker, atoi_intText_self h₀ h₁]

/-! ### What the loops delete -/

def keepsChannel (deviceKeyList : List Bytes) (key : Bytes) : Bool :=
  deviceKeyList.any (compareChannelDeviceId · (parseChannelKey key).1)

def keepsInvite (uninit n : ℤ) (channelDeviceIds : List Bytes) (key : Bytes) : Bool :=
  decide ((parseInviteKey uninit key).1 < n) && channelDeviceIds.contains (parseInviteKey uninit key).2

theorem dropChannels_eq (deviceKeyList keys : List Bytes) (s : Store T) :
    dropChannels deviceKeyList keys s =
      ((keys.filter (! keepsChannel deviceKeyList ·)).foldl (fun s key => s.erase key) s,
        (keys.filter (keepsChannel deviceKeyList)).map fun key => (parseChannelKey key).2) := by
  induction keys generalizing s with
  | nil => rfl
  | cons key keys ih =>
    simp only [dropChannels]
    change (if keepsChannel deviceKeyList key = true then _ else _) = _
    by_cases hkeeps : keepsChannel deviceKeyList key = true
    · rw [if_pos hkeeps, ih]
      simp [hkeeps]
    · rw [if_neg hkeeps, ih]
      simp [hkeeps]

theorem dropInvites_eq (uninit n : ℤ) (channelDeviceIds keys : List Bytes) (s : Store T) :
    dropInvites uninit n channelDeviceIds keys s =
      (keys.filter (! keepsInvite uninit n channelDeviceIds ·)).foldl (fun s key => s.erase key) s := by
  induction keys generalizing s with
  | nil => rfl
  | cons key keys ih =>
    simp only [dropInvites, filter_cons, keepsInvite]
    split
    · rename_i hworker
      simp [ih, hworker, keepsInvite]
    · rename_i hworker
      by_cases hchannel : (parseInviteKey uninit key).2 ∈ channelDeviceIds
      · simp [ih, hchannel, not_le.1 hworker, keepsInvite]
      · simp [ih, hchannel, keepsInvite]

theorem mem_foldl_erase {keys : List Bytes} {s : Store T} {key : Bytes} :
    key ∈ keys.foldl (fun s key => s.erase key) s ↔ key ∈ s ∧ key ∉ keys := by
  rw [← AList.lookup_isSome, lookup_foldl_erase]
  by_cases hkey : key ∈ keys
  · simp [hkey]
  · simp [hkey, AList.lookup_isSome]

/-! ### What a downlinker's listings find -/

theorem Entry.exists_fields_eq (e : Entry T) : ∃ rest, e.fields = e.downlinker ++ 58 :: rest := by
  cases e <;> exact ⟨_, rfl⟩

section Listings

variable {s : Store T} {g key : Bytes}

theorem Written.exists_entry (hs : Written s) (hg : 58 ∉ g) (hapart : Apart s g) (hkey : key ∈ s)
    {m : Bytes} (hm : m ∈ [deviceMark, channelMark, inviteMark]) (hstart : m ++ g <+: key) :
    ∃ e : Entry T, e.Clean ∧ e.key = key ∧ e.mark = m ∧ e.downlinker = g ∧
      ∀ g w cmd, e = .invite g w cmd → -2 ^ 31 ≤ w ∧ w < 2 ^ 31 := by
  obtain ⟨e, he, rfl, hworker⟩ := hs key hkey
  have hmark := Entry.mark_eq_of_isPrefix_key hm hstart
  obtain ⟨rest, hfields⟩ := e.exists_fields_eq
  have hkey_eq := e.key_eq
  rw [hkey_eq, ← hmark, prefix_append_right_inj, hfields, isPrefix_field_iff hg] at hstart
  exact ⟨e, he, rfl, hmark, hapart e he hkey hstart, hworker⟩

theorem Written.exists_deviceKey (hs : Written s) (hg : 58 ∉ g) (hapart : Apart s g) (hkey : key ∈ s)
    (hstart : deviceMark ++ g <+: key) : ∃ d, 58 ∉ d ∧ key = deviceKey g d := by
  obtain ⟨e, he, rfl, hmark, rfl, -⟩ := hs.exists_entry hg hapart hkey (by simp) hstart
  obtain ⟨g, x, rfl⟩ := Entry.exists_eq_device hmark
  exact ⟨x.deviceId.bytes, he _ (by simp [Entry.ids]), rfl⟩

theorem Written.exists_channelKey (hs : Written s) (hg : 58 ∉ g) (hapart : Apart s g) (hkey : key ∈ s)
    (hstart : channelMark ++ g <+: key) : ∃ d c, 58 ∉ d ∧ 58 ∉ c ∧ key = channelKey g d c := by
  obtain ⟨e, he, rfl, hmark, rfl, -⟩ := hs.exists_entry hg hapart hkey (by simp) hstart
  obtain ⟨g, x, rfl⟩ := Entry.exists_eq_channel hmark
  exact ⟨x.deviceId.bytes, x.channelDeviceId.bytes, he _ (by simp [Entry.ids]),
    he _ (by simp [Entry.ids]), rfl⟩

theorem channelStart_isPrefix (g d c : Bytes) : channelMark ++ g <+: channelKey g d c := by
  rw [channelKey_eq]
  exact prefix_append ..

theorem Written.worker_range (hs : Written s) (hg : 58 ∉ g) {w q : ℤ} {a x : Bytes}
    (hkey : inviteKey g w a x q ∈ s) : -2 ^ 31 ≤ w ∧ w < 2 ^ 31 := by
  obtain ⟨e, he, heq, hworker⟩ := hs _ hkey
  have hsplit : e.mark ++ e.fields =
      inviteMark ++ (g ++ 58 :: (intText w ++ 58 :: (a ++ 58 :: (x ++ 58 :: intText q)))) := by
    rw [← e.key_eq, heq, inviteKey_eq, append_assoc]
  have hmark : e.mark = inviteMark :=
    mark_eq_of_isPrefix e.mark_mem (by simp) ⟨[], by rw [append_nil, hsplit]⟩
  obtain ⟨g', w', cmd, rfl⟩ := Entry.exists_eq_invite hmark
  have hg' : 58 ∉ g' := he g' (by simp [Entry.ids])
  obtain ⟨-, hrest⟩ := (field_eq_iff hg' hg).1 (append_cancel_left hsplit)
  obtain ⟨hw, -⟩ := (field_eq_iff (colon_notMem_intText w') (colon_notMem_intText w)).1 hrest
  obtain rfl := intText_injective hw
  exact hworker g' w' cmd rfl

end Listings

section Left

variable {s : Store T} {g : Bytes} (hs : Written s) (hg : 58 ∉ g) (hapart : Apart s g)

include hs hg hapart

theorem keepsChannel_iff (heard : Bool) {d c : Bytes} (hd : 58 ∉ d) (hc : 58 ∉ c) :
    keepsChannel (listing heard (deviceMark ++ g) s) (channelKey g d c) = true ↔
      heard = true ∧ deviceKey g d ∈ s := by
  simp only [keepsChannel, parseChannelKey_channelKey hd hc, any_eq_true]
  cases heard with
  | false => simp [listing]
  | true =>
    simp only [listing, if_true, mem_keysFrom, true_and]
    constructor
    · rintro ⟨key, ⟨hkey, hstart⟩, hcompare⟩
      obtain ⟨d', hd', rfl⟩ := hs.exists_deviceKey hg hapart hkey hstart
      exact (compareChannelDeviceId_deviceKey hd' d).1 hcompare ▸ hkey
    · intro hkey
      refine ⟨deviceKey g d, ⟨hkey, ?_⟩, (compareChannelDeviceId_deviceKey hd d).2 rfl⟩
      rw [deviceKey_eq]
      exact prefix_append ..

theorem channelKey_mem_dropChannels (heardD heardC : Bool) {d c : Bytes} (hd : 58 ∉ d) (hc : 58 ∉ c) :
    channelKey g d c ∈ (dropChannels (listing heardD (deviceMark ++ g) s)
        (listing heardC (channelMark ++ g) s) s).1 ↔
      channelKey g d c ∈ s ∧ (heardC = true → heardD = true ∧ deviceKey g d ∈ s) := by
  rw [dropChannels_eq, mem_foldl_erase, mem_filter, Bool.not_eq_true',
    ← Bool.not_eq_true, keepsChannel_iff hs hg hapart heardD hd hc]
  refine and_congr_right fun hkey => ?_
  cases heardC with
  | false => simp [listing]
  | true => simp [listing, mem_keysFrom, hkey, channelStart_isPrefix g d c]

theorem mem_dropChannels_ids (heardD heardC : Bool) {x : Bytes} (hx : 58 ∉ x) :
    x ∈ (dropChannels (listing heardD (deviceMark ++ g) s)
        (listing heardC (channelMark ++ g) s) s).2 ↔
      heardC = true ∧ heardD = true ∧ ∃ d, 58 ∉ d ∧ channelKey g d x ∈ s ∧ deviceKey g d ∈ s := by
  rw [dropChannels_eq, mem_map]
  constructor
  · rintro ⟨key, hmem, rfl⟩
    obtain ⟨hlisted, hkeeps⟩ := mem_filter.1 hmem
    cases heardC with
    | false => cases hlisted
    | true =>
      obtain ⟨hkey, hstart⟩ := mem_keysFrom.1 hlisted
      obtain ⟨d, c, hd, hc, rfl⟩ := hs.exists_channelKey hg hapart hkey hstart
      obtain ⟨hheard, hdevice⟩ := (keepsChannel_iff hs hg hapart heardD hd hc).1 hkeeps
      rw [parseChannelKey_channelKey hd hc]
      exact ⟨rfl, hheard, d, hd, hkey, hdevice⟩
  · rintro ⟨rfl, rfl, d, hd, hkey, hdevice⟩
    have hlisted : channelKey g d x ∈ listing true (channelMark ++ g) s :=
      mem_keysFrom.2 ⟨hkey, channelStart_isPrefix g d x⟩
    refine ⟨channelKey g d x, mem_filter.2 ⟨hlisted, ?_⟩, ?_⟩
    · exact (keepsChannel_iff hs hg hapart true hd hx).2 ⟨rfl, hdevice⟩
    · rw [parseChannelKey_channelKey hd hx]

omit hs hg hapart in
theorem mem_erase_listing_of_ne {heard : Bool} {p : Bytes → Bool} {m m' y : Bytes}
    (hm : m ∈ [deviceMark, channelMark, inviteMark]) (hm' : m' ∈ [deviceMark, channelMark, inviteMark])
    (hne : m ≠ m') :
    m' ++ y ∈ ((listing heard (m ++ g) s).filter p).foldl (fun s key => s.erase key) s ↔
      m' ++ y ∈ s := by
  rw [mem_foldl_erase, and_iff_left_iff_imp]
  intro _ hmem
  have hlisted := (mem_filter.1 hmem).1
  cases heard with
  | false => cases hlisted
  | true => exact hne (mark_eq_of_isPrefix hm hm' (mem_keysFrom.1 hlisted).2)

omit hs hg hapart in
theorem inviteKey_mem_dropInvites (heard : Bool) {uninit n w q : ℤ} {ids : List Bytes} {a x : Bytes}
    (ha : 58 ∉ a) (hx : 58 ∉ x) (h₀ : -2 ^ 31 ≤ w) (h₁ : w < 2 ^ 31) :
    inviteKey g w a x q ∈ dropInvites uninit n ids (listing heard (inviteMark ++ g) s) s ↔
      inviteKey g w a x q ∈ s ∧ (heard = true → w < n ∧ x ∈ ids) := by
  have hstart : inviteMark ++ g <+: inviteKey g w a x q := by
    rw [inviteKey_eq]
    exact prefix_append ..
  rw [dropInvites_eq, mem_foldl_erase, mem_filter]
  refine and_congr_right fun hkey => ?_
  cases heard with
  | false => simp [listing]
  | true => simp [listing, mem_keysFrom, hkey, hstart, keepsInvite, parseInviteKey_inviteKey ha hx h₀ h₁]

omit hs hg hapart in
theorem deviceKey_mem_prepareLoadData (heard : Heard) (uninit n : ℤ) (d : Bytes) :
    deviceKey g d ∈ (prepareLoadData true false .normal heard uninit g n s).2 ↔ deviceKey g d ∈ s := by
  have hkind : deviceKey g d = deviceMark ++ (g ++ 58 :: d) := by rw [deviceKey_eq, append_assoc]
  change _ ∈ dropInvites _ _ _ _ _ ↔ _
  rw [dropInvites_eq, hkind, mem_erase_listing_of_ne (by simp) (by simp) (by decide), dropChannels_eq,
    mem_erase_listing_of_ne (by simp) (by simp) (by decide)]

theorem channelKey_mem_prepareLoadData (heard : Heard) (uninit n : ℤ) {d c : Bytes} (hd : 58 ∉ d)
    (hc : 58 ∉ c) :
    channelKey g d c ∈ (prepareLoadData true false .normal heard uninit g n s).2 ↔
      channelKey g d c ∈ s ∧ (heard.channels = true → heard.devices = true ∧ ChannelIntact s g d) := by
  have hkind : channelKey g d c = channelMark ++ (g ++ 58 :: (d ++ 58 :: c)) := by
    rw [channelKey_eq, append_assoc]
  change _ ∈ dropInvites _ _ _ _ _ ↔ _
  rw [dropInvites_eq, hkind, mem_erase_listing_of_ne (by simp) (by simp) (by decide), ← hkind]
  exact channelKey_mem_dropChannels hs hg hapart heard.devices heard.channels hd hc

theorem inviteKey_mem_prepareLoadData (heard : Heard) (uninit n : ℤ) {w q : ℤ} {a x : Bytes}
    (ha : 58 ∉ a) (hx : 58 ∉ x) :
    inviteKey g w a x q ∈ (prepareLoadData true false .normal heard uninit g n s).2 ↔
      inviteKey g w a x q ∈ s ∧ (heard.invites = true →
        heard.channels = true ∧ heard.devices = true ∧ InviteIntact s g n w x) := by
  have hkind : inviteKey g w a x q = inviteMark ++ (g ++ 58 :: (intText w ++ 58 :: (a ++ 58 ::
      (x ++ 58 :: intText q)))) := by
    rw [inviteKey_eq, append_assoc]
  have hkept : inviteKey g w a x q ∈ (dropChannels (listing heard.devices (deviceMark ++ g) s)
      (listing heard.channels (channelMark ++ g) s) s).1 ↔ inviteKey g w a x q ∈ s := by
    rw [dropChannels_eq, hkind, mem_erase_listing_of_ne (by simp) (by simp) (by decide)]
  by_cases hkey : inviteKey g w a x q ∈ s
  · obtain ⟨h₀, h₁⟩ := hs.worker_range hg hkey
    refine (inviteKey_mem_dropInvites heard.invites ha hx h₀ h₁).trans ?_
    rw [hkept, mem_dropChannels_ids hs hg hapart heard.devices heard.channels hx]
    refine and_congr_right fun _ => imp_congr_right fun _ => ?_
    exact ⟨fun ⟨hw, hc, hd, h⟩ => ⟨hc, hd, hw, h⟩, fun ⟨hc, hd, hw, h⟩ => ⟨hw, hc, hd, h⟩⟩
  · refine iff_of_false (fun hmem => hkey (hkept.1 ?_)) fun h => hkey h.1
    change _ ∈ dropInvites _ _ _ _ _ at hmem
    rw [dropInvites_eq] at hmem
    exact (mem_foldl_erase.1 hmem).1

theorem cleaned_iff_decisions (heard : Heard) (uninit n : ℤ) :
    Cleaned s (prepareLoadData true false .normal heard uninit g n s).2 g n ↔
      (∀ d c, 58 ∉ d → 58 ∉ c → channelKey g d c ∈ s →
        ((heard.channels = true → heard.devices = true ∧ ChannelIntact s g d) ↔ ChannelIntact s g d)) ∧
      ∀ w a x q, 58 ∉ a → 58 ∉ x → inviteKey g w a x q ∈ s →
        ((heard.invites = true → heard.channels = true ∧ heard.devices = true ∧
          InviteIntact s g n w x) ↔ InviteIntact s g n w x) := by
  have hchannels := fun (d c : Bytes) (hd : 58 ∉ d) (hc : 58 ∉ c) =>
    channelKey_mem_prepareLoadData hs hg hapart heard uninit n hd hc
  have hinvites := fun (w q : ℤ) (a x : Bytes) (ha : 58 ∉ a) (hx : 58 ∉ x) =>
    inviteKey_mem_prepareLoadData hs hg hapart heard uninit n (w := w) (q := q) ha hx
  have hintact : (∀ d c, 58 ∉ d → 58 ∉ c → (channelKey g d c ∈
        (prepareLoadData true false .normal heard uninit g n s).2 ↔
          channelKey g d c ∈ s ∧ deviceKey g d ∈ s)) →
      ∀ (w : ℤ) x, 58 ∉ x → ((w < n ∧ ∃ d, 58 ∉ d ∧ channelKey g d x ∈
        (prepareLoadData true false .normal heard uninit g n s).2) ↔ InviteIntact s g n w x) := by
    intro hleft w x hx
    refine and_congr_right fun _ => exists_congr fun d => and_congr_right fun hd => ?_
    exact hleft d x hd hx
  constructor
  · intro hcleaned
    refine ⟨fun d c hd hc hkey => ?_, fun w a x q ha hx hkey => ?_⟩
    · have hboth := (hchannels d c hd hc).symm.trans (hcleaned.channels d c hd hc)
      rwa [and_congr_right_iff, imp_iff_right hkey] at hboth
    · have hboth := (hinvites w q a x ha hx).symm.trans (hcleaned.invites w a x q ha hx)
      rw [and_congr_right_iff, imp_iff_right hkey] at hboth
      exact hboth.trans (hintact hcleaned.channels w x hx)
  · rintro ⟨hdc, hdi⟩
    have hleft : ∀ d c, 58 ∉ d → 58 ∉ c → (channelKey g d c ∈
        (prepareLoadData true false .normal heard uninit g n s).2 ↔
          channelKey g d c ∈ s ∧ deviceKey g d ∈ s) := fun d c hd hc =>
      (hchannels d c hd hc).trans (and_congr_right fun hkey => hdc d c hd hc hkey)
    refine ⟨fun d _ => deviceKey_mem_prepareLoadData heard uninit n d, hleft, fun w a x q ha hx => ?_⟩
    refine (hinvites w q a x ha hx).trans (and_congr_right fun hkey => ?_)
    exact (hdi w a x q ha hx hkey).trans (hintact hleft w x hx).symm

end Left

/-! ### Stores of entries -/

theorem mem_storeOf {entries : List (Entry T)} {key : Bytes} :
    key ∈ storeOf entries ↔ ∃ e ∈ entries, e.key = key := by
  have hfold : ∀ (entries : List (Entry T)) (s : Store T),
      key ∈ entries.foldl (fun s e => s.insert e.key e.record) s ↔
        key ∈ s ∨ ∃ e ∈ entries, e.key = key := by
    intro entries
    induction entries with
    | nil => simp
    | cons e entries ih =>
      intro s
      rw [foldl_cons, ih, AList.mem_insert]
      simp only [exists_mem_cons_iff, eq_comm (a := key), or_assoc, or_left_comm]
  simpa [storeOf] using hfold entries ∅

theorem Entry.downlinker_eq_of_key_eq {e e' : Entry T} (he : e.Clean) (he' : e'.Clean)
    (h : e.key = e'.key) : e.downlinker = e'.downlinker := by
  have hclean : ∀ e : Entry T, e.Clean → 58 ∉ e.downlinker := by
    intro e he
    cases e <;> exact he _ (by simp [Entry.ids, Entry.downlinker])
  rw [e.key_eq, e'.key_eq] at h
  have hmark : e.mark = e'.mark :=
    mark_eq_of_isPrefix e.mark_mem e'.mark_mem ⟨[], by rw [append_nil, h]⟩
  obtain ⟨rest, hfields⟩ := e.exists_fields_eq
  obtain ⟨rest', hfields'⟩ := e'.exists_fields_eq
  rw [hmark, hfields, hfields'] at h
  exact ((field_eq_iff (hclean e he) (hclean e' he')).1 (append_cancel_left h)).1

theorem apart_storeOf {entries : List (Entry T)} {g : Bytes} (hclean : ∀ e ∈ entries, e.Clean)
    (h : ∀ e ∈ entries, g <+: e.downlinker → e.downlinker = g) : Apart (storeOf entries) g := by
  intro e he hkey hstart
  obtain ⟨e', hmem, heq⟩ := mem_storeOf.1 hkey
  have hsame := Entry.downlinker_eq_of_key_eq (hclean e' hmem) he heq
  rw [← hsame] at hstart ⊢
  exact h e' hmem hstart

theorem fits_D2 : FieldType.string.Fits (ascii "D2") := by decide

def loadEntries : List (Entry sampleTypes) :=
  let channel := sampleChannel sampleDevice.deviceId
  [.device (ascii "G") sampleDevice, .channel (ascii "G") channel,
   .channel (ascii "G") (sampleChannel ⟨ascii "D2", fits_D2⟩),
   .invite (ascii "G") 0 (sampleInvite channel.channelDeviceId),
   .invite (ascii "G") 5 (sampleInvite channel.channelDeviceId)]

theorem loadEntries_clean : ∀ e ∈ loadEntries, e.Clean := by
  unfold loadEntries Entry.Clean
  decide

theorem written_loadEntries : Written (storeOf loadEntries) := by
  intro key hkey
  obtain ⟨e, hmem, rfl⟩ := mem_storeOf.1 hkey
  refine ⟨e, loadEntries_clean e hmem, rfl, ?_⟩
  rintro g w cmd rfl
  simp only [loadEntries, mem_cons, not_mem_nil, reduceCtorEq, Entry.invite.injEq, false_or,
    or_false] at hmem
  omega

theorem apart_loadEntries : Apart (storeOf loadEntries) (ascii "G") := by
  refine apart_storeOf loadEntries_clean ?_
  unfold loadEntries
  decide

/-! ### Which listings do no harm -/

end GBDownLinker
