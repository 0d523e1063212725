/-
**The asynchronous log of `ComponentsW` (`AsyncLogging.cpp`, `FixedBuffer.h`).**

Threads append messages to a buffer under a lock, and a logging thread takes the filled buffers and hands
their bytes to the log file.  An event is an `append`, or what the thread does between two accesses to what
it shares.  After `stop` the thread leaves its loop at the next test of the flag, whatever has been appended
since it last took the buffers.
-/

import BackendProgramming.CText
import BackendProgramming.Lts

set_option autoImplicit false

namespace ComponentsW

open CText List Option

/-! ### The buffers -/

structure FixedBuffer (SIZE : ℕ) where
  data : Bytes
  le : data.length ≤ SIZE
  deriving DecidableEq

namespace FixedBuffer

variable {SIZE : ℕ}

def empty : FixedBuffer SIZE := ⟨[], Nat.zero_le _⟩

def reset (_ : FixedBuffer SIZE) : FixedBuffer SIZE := empty

def length (b : FixedBuffer SIZE) : ℕ := b.data.length

def available (b : FixedBuffer SIZE) : ℕ := SIZE - b.length

def append (b : FixedBuffer SIZE) (buf : Bytes) : FixedBuffer SIZE where
  data := b.data ++ buf.take b.available
  le := by
    have := b.le
    simp only [available, length, length_append, length_take]
    omega

theorem data_append {b : FixedBuffer SIZE} {buf : Bytes} (h : buf.length ≤ b.available) :
    (b.append buf).data = b.data ++ buf := by
  simp only [append, take_of_length_le h]

end FixedBuffer

def kLargeBuffer : ℕ := 4000 * 1000

abbrev Buffer := FixedBuffer kLargeBuffer

def contents (buffers : List Buffer) : Bytes := buffers.flatMap FixedBuffer.data

@[simp] theorem contents_nil : contents [] = [] := rfl

@[simp] theorem contents_append (l l' : List Buffer) : contents (l ++ l') = contents l ++ contents l' := by
  simp [contents]

@[simp] theorem contents_singleton (b : Buffer) : contents [b] = b.data := by simp [contents]

/-! ### The members and the locals -/

structure AsyncLogging where
  running : Bool := false
  currentBuffer : Buffer := .empty
  nextBuffer : Option Buffer := some .empty
  buffers : List Buffer := []
  deriving DecidableEq

def AsyncLogging.append (log : AsyncLogging) (msg : Bytes) : AsyncLogging :=
  if msg.length < log.currentBuffer.available then
    { log with currentBuffer := log.currentBuffer.append msg }
  else
    { log with
      buffers := log.buffers ++ [log.currentBuffer]
      currentBuffer := (log.nextBuffer.getD .empty).append msg
      nextBuffer := none }

inductive Stage where
  | idle
  | started
  | head
  | locking
  | waiting
  | writing
  | exited
  deriving DecidableEq, Repr

structure System where
  log : AsyncLogging := {}
  stage : Stage := .idle
  newBuffer1 : Option Buffer := none
  newBuffer2 : Option Buffer := none
  buffersToWrite : List Buffer := []
  output : Bytes := []
  deriving DecidableEq

/-! ### The steps -/

def System.Asserts (s : System) : Prop :=
  s.newBuffer1.map FixedBuffer.length = some 0 ∧ s.newBuffer2.map FixedBuffer.length = some 0 ∧
    s.buffersToWrite = []

instance (s : System) : Decidable s.Asserts := inferInstanceAs (Decidable (_ ∧ _ ∧ _))

def System.taken (s : System) (newBuffer1 : Buffer) : System :=
  { s with
    log := { s.log with
      currentBuffer := newBuffer1
      buffers := s.buffersToWrite
      nextBuffer := if s.log.nextBuffer.isSome then s.log.nextBuffer else s.newBuffer2 }
    stage := .writing
    newBuffer1 := none
    newBuffer2 := if s.log.nextBuffer.isSome then s.newBuffer2 else none
    buffersToWrite := s.log.buffers ++ [s.log.currentBuffer] }

def System.takeBuffers (s : System) : Option System := s.newBuffer1.map s.taken

def recycle (reserve : Option Buffer) (written : List Buffer) : Option (Buffer × List Buffer) :=
  match reserve with
  | some b => some (b, written)
  | none => written.getLast?.map fun b => (b.reset, written.dropLast)

def System.toWrite (s : System) : List Buffer :=
  if 25 < s.buffersToWrite.length then s.buffersToWrite.take 2 else s.buffersToWrite

def System.written (s : System) (newBuffer1 newBuffer2 : Buffer) : System :=
  { s with
    stage := .head
    newBuffer1 := some newBuffer1
    newBuffer2 := some newBuffer2
    buffersToWrite := []
    output := s.output ++ contents s.toWrite }

def System.writeBuffers (s : System) : Option System :=
  (recycle s.newBuffer1 (s.toWrite.take 2)).bind fun x =>
    (recycle s.newBuffer2 x.2).map fun y => s.written x.1 y.1

def System.thread (ndebug : Bool) (s : System) : Option System :=
  match s.stage with
  | .idle => none
  | .started => some { s with
      log := { s.log with running := if ndebug then s.log.running else true }
      stage := .head
      newBuffer1 := some .empty
      newBuffer2 := some .empty
      buffersToWrite := [] }
  | .head =>
    if s.log.running then
      if s.Asserts then some { s with stage := .locking } else none
    else some { s with stage := .exited }
  | .locking => if s.log.buffers.isEmpty then some { s with stage := .waiting } else s.takeBuffers
  | .waiting => s.takeBuffers
  | .writing => s.writeBuffers
  | .exited => none

inductive LogEvent where
  | start
  | append (msg : Bytes)
  | thread
  | stop
  deriving DecidableEq, Repr

def System.step (ndebug : Bool) (s : System) : LogEvent → Option System
  | .start =>
    if s.stage = .idle then some { s with log := { s.log with running := true }, stage := .started }
    else none
  | .append msg => some { s with log := s.log.append msg }
  | .thread => s.thread ndebug
  | .stop => some { s with log := { s.log with running := false } }

/-! ### What has been appended -/

def messages : List LogEvent → Bytes
  | [] => []
  | .append msg :: es => msg ++ messages es
  | _ :: es => messages es

def System.takes (s : System) : Bool :=
  s.stage == .waiting || s.stage == .locking && !s.log.buffers.isEmpty

def System.appended (s : System) (acc : Bytes) : LogEvent → Bytes
  | .append msg => acc ++ msg
  | .thread => if s.takes then [] else acc
  | _ => acc

def untaken (ndebug : Bool) : System → Bytes → List LogEvent → Bytes
  | _, acc, [] => acc
  | s, acc, e :: es =>
    match s.step ndebug e with
    | none => acc
    | some s' => untaken ndebug s' (s.appended acc e) es

def Allowed (s : System) : LogEvent → Prop
  | .append msg => msg.length < kLargeBuffer
  | .thread => s.takes → s.log.buffers.length + 1 ≤ 25
  | _ => True

instance (s : System) (e : LogEvent) : Decidable (Allowed s e) := by
  unfold Allowed
  split <;> infer_instance

/-! ### The invariant -/

def AsyncLogging.pending (log : AsyncLogging) : Bytes := contents log.buffers ++ log.currentBuffer.data

structure AsyncLogging.Sound (log : AsyncLogging) : Prop where
  next_empty : ∀ b ∈ log.nextBuffer, b = .empty
  next_none : log.nextBuffer = none → log.buffers ≠ []

def System.Locals (s : System) : Prop :=
  match s.stage with
  | .idle => s.buffersToWrite = []
  | .started => s.buffersToWrite = []
  | .exited => s.buffersToWrite = []
  | .writing => s.newBuffer1 = none ∧ 1 ≤ s.buffersToWrite.length ∧ s.buffersToWrite.length ≤ 25 ∧
      (s.newBuffer2 = some .empty ∨ s.newBuffer2 = none ∧ 2 ≤ s.buffersToWrite.length)
  | _ => s.newBuffer1 = some .empty ∧ s.newBuffer2 = some .empty ∧ s.buffersToWrite = []

structure System.Sound (s : System) (msgs left : Bytes) : Prop where
  log : s.log.Sound
  locals : s.Locals
  pending : s.log.pending = left
  bytes : s.output ++ contents s.buffersToWrite ++ left = msgs

theorem sound_init : System.Sound {} [] [] where
  log := ⟨fun b hb => (some.inj hb).symm, fun h => by cases h⟩
  locals := rfl
  pending := rfl
  bytes := rfl

theorem AsyncLogging.Sound.append {log : AsyncLogging} (h : log.Sound) {msg : Bytes}
    (hmsg : msg.length < kLargeBuffer) :
    (log.append msg).Sound ∧ (log.append msg).pending = log.pending ++ msg := by
  unfold AsyncLogging.append
  split
  · next hroom =>
    refine ⟨⟨h.next_empty, h.next_none⟩, ?_⟩
    rw [pending, FixedBuffer.data_append hroom.le, pending, append_assoc]
  · have hnext : log.nextBuffer.getD .empty = .empty := by
      cases hbuf : log.nextBuffer with
      | none => rfl
      | some b => exact h.next_empty b hbuf
    refine ⟨⟨by simp, by simp⟩, ?_⟩
    -- the message fits into the reserve, which is empty
    rw [pending, hnext, FixedBuffer.data_append hmsg.le, pending]
    simp [FixedBuffer.empty]

section Step

variable {s s' : System} {msgs left : Bytes}

theorem System.Sound.takeBuffers (h : s.Sound msgs left) (h₁ : s.newBuffer1 = some .empty)
    (h₂ : s.newBuffer2 = some .empty) (hnil : s.buffersToWrite = [])
    (hbatch : s.log.buffers.length + 1 ≤ 25) :
    s.takeBuffers = some (s.taken .empty) ∧ (s.taken .empty).Sound msgs [] := by
  have hlen : (s.taken .empty).buffersToWrite.length = s.log.buffers.length + 1 := by simp [System.taken]
  refine ⟨by rw [System.takeBuffers, h₁, map_some], ⟨?_, ?_⟩, ⟨rfl, by omega, by omega, ?_⟩, ?_, ?_⟩
  · intro b hb
    simp only [System.taken] at hb
    split at hb
    · exact h.log.next_empty b hb
    · rw [h₂] at hb
      exact (some.inj hb).symm
  · intro hnone
    simp only [System.taken] at hnone
    split at hnone
    · next hsome => simp [hnone] at hsome
    · rw [h₂] at hnone
      cases hnone
  · cases hnext : s.log.nextBuffer with
    | some b => exact Or.inl (by simp [System.taken, hnext, h₂])
    | none =>
      -- the reserve of the other side has been used up, so a buffer has been put aside
      have hne := length_pos_iff.2 (h.log.next_none hnext)
      exact Or.inr ⟨by simp [System.taken, hnext], by omega⟩
  · simp [System.taken, AsyncLogging.pending, hnil, FixedBuffer.empty]
  · have hbytes := h.bytes
    rw [← h.pending, hnil] at hbytes
    simpa [System.taken, AsyncLogging.pending] using hbytes

theorem recycle_none {written : List Buffer} (h : 1 ≤ written.length) :
    recycle none written = some (.empty, written.dropLast) := by
  have hne : written ≠ [] := length_pos_iff.1 h
  rw [recycle, getLast?_eq_some_getLast hne]
  rfl

theorem System.length_toWrite (s : System) : (s.toWrite.take 2).length = min 2 s.buffersToWrite.length := by
  rw [System.toWrite]
  split
  · rw [length_take, length_take]
    omega
  · exact length_take

theorem System.writeBuffers_eq (h₁ : s.newBuffer1 = none) (hpos : 1 ≤ s.buffersToWrite.length)
    (h₂ : s.newBuffer2 = some .empty ∨ s.newBuffer2 = none ∧ 2 ≤ s.buffersToWrite.length) :
    s.writeBuffers = some (s.written .empty .empty) := by
  have hlen := s.length_toWrite
  rw [System.writeBuffers, h₁, recycle_none (by omega), bind_some]
  rcases h₂ with h₂ | ⟨h₂, htwo⟩
  · rw [h₂]
    rfl
  · -- the second reserve comes from the other one of the two buffers kept
    have hkept : 1 ≤ (s.toWrite.take 2).dropLast.length := by
      rw [length_dropLast]
      omega
    rw [h₂, recycle_none hkept]
    rfl

theorem System.Sound.writeBuffers (h : s.Sound msgs left) (hstage : s.stage = .writing) :
    s.writeBuffers = some (s.written .empty .empty) ∧ (s.written .empty .empty).Sound msgs left := by
  have hlocals := h.locals
  simp only [System.Locals, hstage] at hlocals
  obtain ⟨h₁, hpos, hbatch, h₂⟩ := hlocals
  have hall : s.toWrite = s.buffersToWrite := if_neg (by omega)
  refine ⟨System.writeBuffers_eq h₁ hpos h₂, h.log, ⟨rfl, rfl, rfl⟩, h.pending, ?_⟩
  simpa [System.written, hall] using h.bytes

theorem System.Sound.stay (h : s.Sound msgs left) (htakes : ¬ s.takes) (hlog : s'.log.Sound)
    (hlocals : s'.Locals) (hpending : s'.log.pending = s.log.pending)
    (hwrite : s'.buffersToWrite = s.buffersToWrite) (houtput : s'.output = s.output) :
    s'.Sound msgs (s.appended left .thread) := by
  rw [System.appended, if_neg htakes]
  exact ⟨hlog, hlocals, hpending.trans h.pending, by rw [houtput, hwrite]; exact h.bytes⟩

theorem System.Sound.thread (ndebug : Bool) (h : s.Sound msgs left) (hidle : s.stage ≠ .idle)
    (hexited : s.stage ≠ .exited) (hbatch : s.takes → s.log.buffers.length + 1 ≤ 25) :
    ∃ s', s.thread ndebug = some s' ∧ s'.Sound msgs (s.appended left .thread) := by
  have hlocals := h.locals
  unfold System.thread
  cases hstage : s.stage with
  | idle => exact absurd hstage hidle
  | exited => exact absurd hstage hexited
  | started =>
    simp only [System.Locals, hstage] at hlocals
    exact ⟨_, rfl, h.stay (by simp [System.takes, hstage]) ⟨h.log.next_empty, h.log.next_none⟩
      ⟨rfl, rfl, rfl⟩ rfl hlocals.symm rfl⟩
  | head =>
    simp only [System.Locals, hstage] at hlocals
    have htakes : ¬ s.takes := by simp [System.takes, hstage]
    have hasserts : s.Asserts := by
      rw [System.Asserts, hlocals.1, hlocals.2.1]
      exact ⟨rfl, rfl, hlocals.2.2⟩
    dsimp only
    rw [if_pos hasserts]
    split
    · exact ⟨_, rfl, h.stay htakes h.log hlocals rfl rfl rfl⟩
    · exact ⟨_, rfl, h.stay htakes h.log hlocals.2.2 rfl rfl rfl⟩
  | locking =>
    simp only [System.Locals, hstage] at hlocals
    by_cases hnil : s.log.buffers.isEmpty
    · rw [if_pos hnil]
      exact ⟨_, rfl, h.stay (by simp [System.takes, hstage, hnil]) h.log hlocals rfl rfl rfl⟩
    · have htakes : s.takes = true := by simp [System.takes, hstage, hnil]
      obtain ⟨heq, hs'⟩ := h.takeBuffers hlocals.1 hlocals.2.1 hlocals.2.2 (hbatch htakes)
      rw [if_neg hnil]
      exact ⟨_, heq, by rwa [System.appended, if_pos htakes]⟩
  | waiting =>
    simp only [System.Locals, hstage] at hlocals
    have htakes : s.takes = true := by simp [System.takes, hstage]
    obtain ⟨heq, hs'⟩ := h.takeBuffers hlocals.1 hlocals.2.1 hlocals.2.2 (hbatch htakes)
    exact ⟨_, heq, by rwa [System.appended, if_pos htakes]⟩
  | writing =>
    obtain ⟨heq, hs'⟩ := h.writeBuffers hstage
    exact ⟨_, heq, by rwa [System.appended, if_neg (by simp [System.takes, hstage])]⟩

theorem step_sound {ndebug : Bool} {e : LogEvent} (h : s.Sound msgs left) (hallowed : Allowed s e)
    (hstep : s.step ndebug e = some s') : s'.Sound (msgs ++ messages [e]) (s.appended left e) := by
  cases e with
  | start =>
    rw [System.step] at hstep
    split at hstep
    · next hidle =>
      cases hstep
      have hlocals := h.locals
      simp only [System.Locals, hidle] at hlocals
      exact ⟨⟨h.log.next_empty, h.log.next_none⟩, hlocals, h.pending,
        by simpa [messages, System.appended] using h.bytes⟩
    · cases hstep
  | append msg =>
    cases hstep
    obtain ⟨hlog, hpending⟩ := h.log.append hallowed
    refine ⟨hlog, h.locals, by rw [hpending, h.pending]; rfl, ?_⟩
    rw [System.appended, ← append_assoc, h.bytes]
    simp [messages]
  | thread =>
    have hidle : s.stage ≠ .idle := by
      intro hstage
      simp [System.step, System.thread, hstage] at hstep
    have hexited : s.stage ≠ .exited := by
      intro hstage
      simp [System.step, System.thread, hstage] at hstep
    obtain ⟨t, ht, hsound⟩ := h.thread ndebug hidle hexited hallowed
    obtain rfl := some.inj (ht.symm.trans hstep)
    simpa [messages] using hsound
  | stop =>
    cases hstep
    exact ⟨⟨h.log.next_empty, h.log.next_none⟩, h.locals, h.pending,
      by simpa [messages, System.appended] using h.bytes⟩

end Step

theorem messages_cons (e : LogEvent) (es : List LogEvent) : messages (e :: es) = messages [e] ++ messages es := by
  cases e <;> simp [messages]

theorem run_sound {ndebug : Bool} {s s' : System} {msgs left : Bytes} {es : List LogEvent}
    (h : s.Sound msgs left) (hallowed : Lts.Along (System.step ndebug) Allowed s es)
    (hrun : Lts.run (System.step ndebug) s es = some s') :
    s'.Sound (msgs ++ messages es) (untaken ndebug s left es) := by
  induction es generalizing s msgs left with
  | nil =>
    cases hrun
    simpa [messages, untaken] using h
  | cons e es ih =>
    obtain ⟨t, ht, hrest⟩ := Lts.run_cons hrun
    have := ih (step_sound h hallowed.1 ht) (hallowed.2 t ht) hrest
    rw [messages_cons, ← append_assoc]
    simpa only [untaken, ht] using this

/-! ### What the file has -/

theorem logged_iff (ndebug : Bool) (es : List LogEvent) (s : System)
    (hallowed : Lts.Along (System.step ndebug) Allowed {} es)
    (hrun : Lts.run (System.step ndebug) {} es = some s) (hexited : s.stage = .exited) :
    s.output = messages es ↔ untaken ndebug {} [] es = [] := by
  have h := run_sound sound_init hallowed hrun
  have hlocals := h.locals
  simp only [System.Locals, hexited] at hlocals
  have hbytes := h.bytes
  rw [hlocals, contents_nil, append_nil, nil_append] at hbytes
  rw [← hbytes]
  exact self_eq_append_right

def earlyAppend : List LogEvent :=
  [.start, .append [104, 105], .thread, .thread, .thread, .thread, .stop, .thread, .thread]

theorem logged_earlyAppend :
    (Lts.run (System.step false) {} earlyAppend).map (fun s => s.output) = some [104, 105] := by
  obtain ⟨s, hrun, hexited⟩ : ∃ s, Lts.run (System.step false) {} earlyAppend = some s ∧ s.stage = .exited :=
    map_eq_some_iff.1 (by decide +kernel :
      (Lts.run (System.step false) {} earlyAppend).map System.stage = some .exited)
  have := (logged_iff false earlyAppend s (by decide +kernel) hrun hexited).2 (by decide +kernel)
  rw [hrun]
  exact congrArg some this

def lateAppend : List LogEvent :=
  [.start, .thread, .thread, .thread, .thread, .append [104, 105], .stop, .thread, .thread]

theorem lateAppend_lost :
    Lts.Along (System.step false) Allowed {} lateAppend ∧
      (Lts.run (System.step false) {} lateAppend).map (fun s => (s.stage, s.output)) = some (.exited, []) ∧
      messages lateAppend = [104, 105] := by
  decide +kernel

/-! ### The buffers that are recycled -/

structure System.Stocked (s : System) : Prop where
  next : s.log.nextBuffer = none → s.log.buffers ≠ []
  locals : match s.stage with
    | .idle | .started | .exited => True
    | .writing => s.newBuffer1 = none ∧ 1 ≤ s.buffersToWrite.length ∧
        (s.newBuffer2 = some .empty ∨ s.newBuffer2 = none ∧ 2 ≤ s.buffersToWrite.length)
    | _ => s.newBuffer1 = some .empty ∧ s.newBuffer2 = some .empty ∧ s.buffersToWrite = []

section Stocked

variable {ndebug : Bool} {s s' : System}

theorem System.Stocked.takeBuffers (h : s.Stocked) (h₁ : s.newBuffer1 = some .empty)
    (h₂ : s.newBuffer2 = some .empty) (hs' : s.takeBuffers = some s') : s'.Stocked := by
  rw [System.takeBuffers, h₁, map_some] at hs'
  cases hs'
  cases hnext : s.log.nextBuffer with
  | some b =>
    refine ⟨fun hnone => ?_, rfl, ?_, .inl ?_⟩
    · simp [System.taken, hnext] at hnone
    · simp [System.taken]
    · simp [System.taken, hnext, h₂]
  | none =>
    have hpos := length_pos_iff.2 (h.next hnext)
    refine ⟨fun hnone => ?_, rfl, ?_, .inr ⟨?_, ?_⟩⟩
    · simp [System.taken, hnext, h₂] at hnone
    · simp [System.taken]
    · simp [System.taken, hnext]
    · simp only [System.taken, length_append, length_singleton]
      omega

theorem System.Stocked.thread (h : s.Stocked) (hs' : s.thread ndebug = some s') : s'.Stocked := by
  have hlocals := h.locals
  rw [System.thread] at hs'
  cases hstage : s.stage with
  | idle => simp [hstage] at hs'
  | exited => simp [hstage] at hs'
  | started =>
    simp only [hstage] at hs'
    cases hs'
    exact ⟨h.next, rfl, rfl, rfl⟩
  | head =>
    simp only [hstage] at hs' hlocals
    split at hs'
    · split at hs'
      · cases hs'
        exact ⟨h.next, hlocals⟩
      · cases hs'
    · cases hs'
      exact ⟨h.next, trivial⟩
  | locking =>
    simp only [hstage] at hs' hlocals
    split at hs'
    · cases hs'
      exact ⟨h.next, hlocals⟩
    · exact h.takeBuffers hlocals.1 hlocals.2.1 hs'
  | waiting =>
    simp only [hstage] at hs' hlocals
    exact h.takeBuffers hlocals.1 hlocals.2.1 hs'
  | writing =>
    simp only [hstage] at hs' hlocals
    rw [System.writeBuffers_eq hlocals.1 hlocals.2.1 hlocals.2.2] at hs'
    cases hs'
    exact ⟨h.next, rfl, rfl, rfl⟩

theorem System.Stocked.step {e : LogEvent} (h : s.Stocked) (hs' : s.step ndebug e = some s') : s'.Stocked := by
  cases e with
  | start =>
    rw [System.step] at hs'
    split at hs'
    · cases hs'
      exact ⟨h.next, trivial⟩
    · cases hs'
  | append msg =>
    cases hs'
    refine ⟨?_, h.locals⟩
    rw [AsyncLogging.append]
    split
    · exact h.next
    · simp
  | thread => exact h.thread hs'
  | stop =>
    cases hs'
    exact ⟨h.next, h.locals⟩

end Stocked

theorem buffers_recycled (ndebug : Bool) (es : List LogEvent) (s : System)
    (hrun : Lts.run (System.step ndebug) {} es = some s) :
    (s.stage = .head → s.Asserts) ∧ (s.takes → s.newBuffer1 ≠ none) ∧
      (s.log.nextBuffer = none → s.log.buffers ≠ []) ∧
      (s.stage = .writing → ∃ x y, recycle s.newBuffer1 (s.toWrite.take 2) = some x ∧
        recycle s.newBuffer2 x.2 = some y) := by
  have h : s.Stocked := by
    refine Lts.run_invariant (fun s e s' h _ hs' => h.step hs') ⟨fun h => ?_, trivial⟩ (Lts.Along.of_true _ es) hrun
    cases h
  have hlocals := h.locals
  refine ⟨fun hstage => ?_, fun htakes => ?_, h.next, fun hstage => ?_⟩
  · simp only [hstage] at hlocals
    rw [System.Asserts, hlocals.1, hlocals.2.1]
    exact ⟨rfl, rfl, hlocals.2.2⟩
  · cases hstage : s.stage <;> simp_all [System.takes]
  · simp only [hstage] at hlocals
    obtain ⟨x, hx, hrest⟩ := bind_eq_some_iff.1 (System.writeBuffers_eq hlocals.1 hlocals.2.1 hlocals.2.2)
    obtain ⟨y, hy, -⟩ := map_eq_some_iff.1 hrest
    exact ⟨x, y, hx, hy⟩

theorem buffers_recycled_early :
    (Lts.run (System.step false) {} earlyAppend).isSome ∧
      ∀ s, Lts.run (System.step false) {} earlyAppend = some s →
        (s.log.nextBuffer = none → s.log.buffers ≠ []) :=
  ⟨by decide +kernel, fun s hrun => (buffers_recycled false earlyAppend s hrun).2.2.1⟩

/-! ### Whatever is dropped -/

structure System.Thinned (s : System) (msgs : Bytes) : Prop where
  stocked : s.Stocked
  next_empty : ∀ b ∈ s.log.nextBuffer, b = .empty
  bytes : s.output ++ contents s.buffersToWrite ++ s.log.pending <+ msgs

theorem AsyncLogging.pending_append_sublist {log : AsyncLogging} (h : ∀ b ∈ log.nextBuffer, b = .empty)
    (msg : Bytes) : (log.append msg).pending <+ log.pending ++ msg := by
  unfold AsyncLogging.append
  split
  · rw [pending, FixedBuffer.append, ← append_assoc]
    exact (take_sublist _ _).append_left _
  · have hnext : (log.nextBuffer.getD .empty).data = [] := by
      cases hbuf : log.nextBuffer with
      | none => rfl
      | some b => rw [h b hbuf]; rfl
    simp only [pending, FixedBuffer.append, hnext, nil_append, contents_append, contents_singleton]
    exact (take_sublist _ _).append_left _

namespace System.Thinned

variable {ndebug : Bool} {s s' : System} {msgs : Bytes}

theorem takeBuffers (h : s.Thinned msgs) (h₁ : s.newBuffer1 = some .empty)
    (h₂ : s.newBuffer2 = some .empty) (hnil : s.buffersToWrite = []) (hs' : s.takeBuffers = some s') :
    s'.Thinned msgs := by
  refine ⟨h.stocked.takeBuffers h₁ h₂ hs', ?_, ?_⟩
  all_goals
    rw [System.takeBuffers, h₁, map_some] at hs'
    cases hs'
  · intro b hb
    simp only [System.taken, h₂] at hb
    split at hb
    · exact h.next_empty b hb
    · exact (some.inj hb).symm
  · have hbytes := h.bytes
    rw [hnil] at hbytes
    simpa [System.taken, AsyncLogging.pending, hnil, FixedBuffer.empty] using hbytes

theorem writeBuffers (h : s.Thinned msgs) (hs' : s.writeBuffers = some s')
    (hstocked : s'.Stocked) : s'.Thinned msgs := by
  obtain ⟨x, -, hrest⟩ := bind_eq_some_iff.1 hs'
  obtain ⟨y, -, rfl⟩ := map_eq_some_iff.1 hrest
  have hkept : s.toWrite <+ s.buffersToWrite := by
    rw [System.toWrite]
    split
    · exact take_sublist _ _
    · exact .refl _
  refine ⟨hstocked, h.next_empty, .trans ?_ h.bytes⟩
  simp only [System.written, contents_nil, append_nil]
  exact ((hkept.flatMap _).append_left _).append_right _

theorem thread (h : s.Thinned msgs) (hs' : s.thread ndebug = some s') : s'.Thinned msgs := by
  have hstocked := h.stocked.thread hs'
  have hlocals := h.stocked.locals
  rw [System.thread] at hs'
  cases hstage : s.stage with
  | idle => simp [hstage] at hs'
  | exited => simp [hstage] at hs'
  | started =>
    simp only [hstage] at hs'
    cases hs'
    refine ⟨hstocked, h.next_empty, .trans ?_ h.bytes⟩
    exact (((nil_sublist _).append_left _).append_right _)
  | head =>
    simp only [hstage] at hs'
    split at hs'
    · split at hs'
      · cases hs'
        exact ⟨hstocked, h.next_empty, h.bytes⟩
      · cases hs'
    · cases hs'
      exact ⟨hstocked, h.next_empty, h.bytes⟩
  | locking =>
    simp only [hstage] at hs' hlocals
    split at hs'
    · cases hs'
      exact ⟨hstocked, h.next_empty, h.bytes⟩
    · exact h.takeBuffers hlocals.1 hlocals.2.1 hlocals.2.2 hs'
  | waiting =>
    simp only [hstage] at hs' hlocals
    exact h.takeBuffers hlocals.1 hlocals.2.1 hlocals.2.2 hs'
  | writing =>
    simp only [hstage] at hs'
    exact h.writeBuffers hs' hstocked

theorem step {e : LogEvent} (h : s.Thinned msgs) (hs' : s.step ndebug e = some s') :
    s'.Thinned (msgs ++ messages [e]) := by
  have hstocked := h.stocked.step hs'
  cases e with
  | start =>
    rw [System.step] at hs'
    split at hs'
    · cases hs'
      exact ⟨hstocked, h.next_empty, by simpa [messages, AsyncLogging.pending] using h.bytes⟩
    · cases hs'
  | append msg =>
    cases hs'
    refine ⟨hstocked, ?_, ?_⟩
    · unfold AsyncLogging.append
      split
      · exact h.next_empty
      · simp
    · refine ((AsyncLogging.pending_append_sublist h.next_empty msg).append_left _).trans ?_
      rw [← append_assoc, messages, messages, append_nil]
      exact h.bytes.append_right msg
  | thread => simpa [messages] using h.thread hs'
  | stop =>
    cases hs'
    exact ⟨hstocked, h.next_empty, by simpa [messages, AsyncLogging.pending] using h.bytes⟩

theorem run {es : List LogEvent} (h : s.Thinned msgs)
    (hrun : Lts.run (System.step ndebug) s es = some s') : s'.Thinned (msgs ++ messages es) := by
  induction es generalizing s msgs with
  | nil =>
    cases hrun
    simpa [messages] using h
  | cons e es ih =>
    obtain ⟨t, ht, hrest⟩ := Lts.run_cons hrun
    rw [messages_cons, ← append_assoc]
    exact ih (h.step ht) hrest

end System.Thinned

/-- In every run, whatever messages and batches it has, the bytes that the file, the thread and the log have,
in this order, are those of the messages with some left out, and with `Allowed` events none is. -/
theorem written_in_order (ndebug : Bool) (es : List LogEvent) (s : System)
    (hrun : Lts.run (System.step ndebug) {} es = some s) :
    s.output ++ contents s.buffersToWrite ++ s.log.pending <+ messages es ∧
      (Lts.Along (System.step ndebug) Allowed {} es →
        s.output ++ contents s.buffersToWrite ++ s.log.pending = messages es) := by
  constructor
  · have hinit : System.Thinned {} [] :=
      ⟨⟨fun h => (by cases h), trivial⟩, fun b hb => (some.inj hb).symm, nil_sublist _⟩
    exact (hinit.run hrun).bytes
  · intro hallowed
    have h := run_sound sound_init hallowed hrun
    rw [h.pending]
    exact h.bytes

theorem written_in_order_late :
    ∃ s, Lts.run (System.step false) {} lateAppend = some s ∧
      s.output ++ contents s.buffersToWrite ++ s.log.pending = messages lateAppend := by
  obtain ⟨s, hrun⟩ := isSome_iff_exists.1 (by decide +kernel :
    (Lts.run (System.step false) {} lateAppend).isSome)
  exact ⟨s, hrun, (written_in_order false lateAppend s hrun).2 (by decide +kernel)⟩

end ComponentsW
