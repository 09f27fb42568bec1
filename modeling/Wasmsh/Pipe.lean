import Wasmsh.Library.Channels

/-!
# Pipe buffers

`wasmsh-vm/src/pipe.rs`.  Two stages of a pipeline share a bounded buffer of bytes; the
writer learns from each call how many of its bytes were accepted, and the reader gets bytes
in the slice it passes.  Each operation is modelled with the buffer it leaves behind, and a
read also with the reader's slice.
-/

namespace Wasmsh

/-! ## 1. The buffer -/

structure PipeBuffer where
  data : List UInt8
  capacity : Nat
  writeClosed : Bool
  readClosed : Bool
  deriving DecidableEq, Repr

/-- `WriteResult`. -/
inductive WriteResult where
  | written (n : Nat)
  | wouldBlock (n : Nat)
  | brokenPipe
  deriving DecidableEq, Repr

/-- `ReadResult`. -/
inductive ReadResult where
  | read (n : Nat)
  | wouldBlock
  | eof
  deriving DecidableEq, Repr

namespace PipeBuffer

def new (capacity : Nat) : PipeBuffer := ⟨[], capacity, false, false⟩

/-- `write`. -/
def write (p : PipeBuffer) (buf : List UInt8) : WriteResult × PipeBuffer :=
  if p.readClosed then (.brokenPipe, p)
  else if buf.isEmpty then (.written 0, p)
  else
    let available := p.capacity - p.data.length
    if available = 0 then (.wouldBlock 0, p)
    else
      let toWrite := min buf.length available
      let p := { p with data := p.data ++ buf.take toWrite }
      if toWrite < buf.length then (.wouldBlock toWrite, p) else (.written toWrite, p)

/-- `read_all` only looks. -/
def readAll (p : PipeBuffer) : ReadResult :=
  if p.data.isEmpty then (if p.writeClosed then .eof else .wouldBlock) else .read p.data.length

/-- `read`, with the reader's slice after the call. -/
def read (p : PipeBuffer) (buf : List UInt8) : ReadResult × List UInt8 × PipeBuffer :=
  if buf.isEmpty then (.read 0, buf, p)
  else if p.data.isEmpty then (if p.writeClosed then .eof else .wouldBlock, buf, p)
  else
    let toRead := min buf.length p.data.length
    (.read toRead, p.data.take toRead ++ buf.drop toRead, { p with data := p.data.drop toRead })

/-- `drain`. -/
def drain (p : PipeBuffer) : List UInt8 × PipeBuffer := (p.data, { p with data := [] })

def closeWrite (p : PipeBuffer) : PipeBuffer := { p with writeClosed := true }

def closeRead (p : PipeBuffer) : PipeBuffer := { p with readClosed := true }

end PipeBuffer

/-! ## 2. Runs -/

/-- What one of the two stages calls; a reader passes a slice with whatever is in it. -/
inductive PipeOp where
  | write (buf : List UInt8)
  | read (buf : List UInt8)
  | drain
  | closeWrite
  | closeRead
  deriving DecidableEq, Repr

/-- What the caller gets back. -/
inductive PipeReply where
  | wrote (result : WriteResult)
  | gave (result : ReadResult) (buf : List UInt8)
  | drained (bytes : List UInt8)
  | closed
  deriving DecidableEq, Repr

namespace PipeBuffer

def perform (p : PipeBuffer) : PipeOp → PipeReply × PipeBuffer
  | .write buf => (.wrote (p.write buf).1, (p.write buf).2)
  | .read buf => (.gave (p.read buf).1 (p.read buf).2.1, (p.read buf).2.2)
  | .drain => (.drained p.drain.1, p.drain.2)
  | .closeWrite => (.closed, p.closeWrite)
  | .closeRead => (.closed, p.closeRead)

/-- Operations in the order in which they happen, with the reply to each. -/
def run (p : PipeBuffer) : List PipeOp → List (PipeOp × PipeReply) × PipeBuffer
  | [] => ([], p)
  | op :: ops =>
    let rest := (p.perform op).2.run ops
    ((op, (p.perform op).1) :: rest.1, rest.2)

end PipeBuffer

/-- The prefix of a written slice that the reply reports as accepted. -/
def acceptedBytes : PipeOp × PipeReply → List UInt8
  | (.write buf, .wrote (.written n)) => buf.take n
  | (.write buf, .wrote (.wouldBlock n)) => buf.take n
  | _ => []

/-- The bytes that the reply hands to a reader. -/
def deliveredBytes : PipeOp × PipeReply → List UInt8
  | (_, .gave (.read n) buf) => buf.take n
  | (_, .drained bytes) => bytes
  | _ => []

def accepted (log : List (PipeOp × PipeReply)) : List UInt8 := log.flatMap acceptedBytes

def delivered (log : List (PipeOp × PipeReply)) : List UInt8 := log.flatMap deliveredBytes

/-! ## 3. What one operation does -/

namespace PipeBuffer

/-- A write adds what it reports at the end, within the capacity; it leaves the ends as they
    are. -/
theorem write_spec (p : PipeBuffer) (buf : List UInt8) :
    (p.write buf).2 =
      { p with data := p.data ++ acceptedBytes (.write buf, .wrote (p.write buf).1) } ∧
    (p.data.length ≤ p.capacity → (p.write buf).2.data.length ≤ p.capacity) := by
  obtain ⟨data, capacity, writeClosed, readClosed⟩ := p
  unfold write
  by_cases hclosed : readClosed
  · simp [hclosed, acceptedBytes]
  by_cases hempty : buf.isEmpty
  · simp [hclosed, hempty, acceptedBytes]
  by_cases hfull : capacity - data.length = 0
  · simp [hclosed, hempty, hfull, acceptedBytes]
  simp only [hclosed, hempty, hfull, if_false, Bool.false_eq_true]
  by_cases hpart : min buf.length (capacity - data.length) < buf.length
  · rw [if_pos hpart]
    refine ⟨rfl, fun _ => ?_⟩
    simp only [List.length_append, List.length_take]
    omega
  · rw [if_neg hpart]
    refine ⟨rfl, fun _ => ?_⟩
    simp only [List.length_append, List.length_take]
    omega

/-- A read takes from the front what it hands out. -/
theorem read_spec (p : PipeBuffer) (buf : List UInt8) :
    ∃ n, deliveredBytes (.read buf, .gave (p.read buf).1 (p.read buf).2.1) = p.data.take n ∧
      (p.read buf).2.2 = { p with data := p.data.drop n } := by
  obtain ⟨data, capacity, writeClosed, readClosed⟩ := p
  unfold read
  by_cases hempty : buf.isEmpty
  · exact ⟨0, by simp [hempty, deliveredBytes]⟩
  by_cases hnone : data.isEmpty
  · refine ⟨0, ?_⟩
    by_cases hclosed : writeClosed <;> simp [hempty, hnone, hclosed, deliveredBytes]
  · refine ⟨min buf.length data.length, ?_⟩
    simp only [hempty, hnone, if_false, Bool.false_eq_true, deliveredBytes]
    refine ⟨?_, trivial⟩
    rw [List.take_append_of_le_length (by simp), List.take_take, Nat.min_self]

/-- The end of the stream is reported to no one while there is something to read or the
    writer may still write. -/
theorem read_eof {p : PipeBuffer} {buf : List UInt8} (h : (p.read buf).1 = .eof) :
    p.data = [] ∧ p.writeClosed = true := by
  unfold read at h
  by_cases hempty : buf.isEmpty
  · simp [hempty] at h
  by_cases hnone : p.data.isEmpty
  · by_cases hclosed : p.writeClosed
    · exact ⟨by simpa using hnone, hclosed⟩
    · simp [hempty, hnone, hclosed] at h
  · simp [hempty, hnone] at h

theorem readAll_eof {p : PipeBuffer} (h : p.readAll = .eof) :
    p.data = [] ∧ p.writeClosed = true := by
  unfold readAll at h
  by_cases hnone : p.data.isEmpty
  · by_cases hclosed : p.writeClosed
    · exact ⟨by simpa using hnone, hclosed⟩
    · simp [hnone, hclosed] at h
  · simp [hnone] at h

theorem write_of_readClosed {p : PipeBuffer} (h : p.readClosed = true) (buf : List UInt8) :
    p.write buf = (.brokenPipe, p) := by
  rw [write, if_pos h]

/-! ## 4. A pipe is a channel -/

/-- The buffer holds what is pending of the channel, within its capacity, and an end is
    closed exactly when it was closed among the operations so far. -/
structure Carries (cap : Nat) (ops : List PipeOp) (c : Channel UInt8) (p : PipeBuffer) :
    Prop where
  pending : p.data = c.pending
  capacity : p.capacity = cap
  bounded : p.data.length ≤ cap
  writeClosed : p.writeClosed = true ↔ PipeOp.closeWrite ∈ ops
  readClosed : p.readClosed = true ↔ PipeOp.closeRead ∈ ops

variable {cap : Nat} {ops : List PipeOp} {c : Channel UInt8} {p : PipeBuffer}

theorem carries_new (cap : Nat) : Carries cap [] Channel.empty (new cap) where
  pending := rfl
  capacity := rfl
  bounded := Nat.zero_le cap
  writeClosed := by simp [new]
  readClosed := by simp [new]

/-- Each operation sends over the channel what its reply accepts, and receives from it what
    its reply delivers. -/
theorem Carries.perform (h : Carries cap ops c p) (op : PipeOp) :
    ∃ c' : Channel UInt8, Carries cap (ops ++ [op]) c' (p.perform op).2 ∧
      c'.sent = c.sent ++ acceptedBytes (op, (p.perform op).1) ∧
      c'.delivered = c.delivered ++ deliveredBytes (op, (p.perform op).1) := by
  cases op with
  | write buf =>
    obtain ⟨hafter, hroom⟩ := p.write_spec buf
    refine ⟨c.send (acceptedBytes (.write buf, .wrote (p.write buf).1)), ⟨?_, ?_, ?_, ?_, ?_⟩,
      rfl, ?_⟩
    · simp only [PipeBuffer.perform, hafter, Channel.pending_send, h.pending]
    · simp only [PipeBuffer.perform, hafter, h.capacity]
    · have := hroom (h.capacity ▸ h.bounded)
      simpa only [PipeBuffer.perform, h.capacity] using this
    · simp [PipeBuffer.perform, hafter, h.writeClosed]
    · simp [PipeBuffer.perform, hafter, h.readClosed]
    · simp [PipeBuffer.perform, deliveredBytes]
  | read buf =>
    obtain ⟨n, hgave, hafter⟩ := p.read_spec buf
    refine ⟨c.receive n, ⟨?_, ?_, ?_, ?_, ?_⟩, ?_, ?_⟩
    · simp only [PipeBuffer.perform, hafter, Channel.pending_receive, h.pending]
    · simp only [PipeBuffer.perform, hafter, h.capacity]
    · have := h.bounded
      simp only [PipeBuffer.perform, hafter, List.length_drop]
      omega
    · simp [PipeBuffer.perform, hafter, h.writeClosed]
    · simp [PipeBuffer.perform, hafter, h.readClosed]
    · simp [acceptedBytes]
    · simp only [PipeBuffer.perform, hgave, Channel.delivered_receive, h.pending]
  | drain =>
    refine ⟨c.receive c.pending.length, ⟨?_, h.capacity, Nat.zero_le _, ?_, ?_⟩, ?_, ?_⟩
    · simp [PipeBuffer.perform, PipeBuffer.drain]
    · simp [PipeBuffer.perform, PipeBuffer.drain, h.writeClosed]
    · simp [PipeBuffer.perform, PipeBuffer.drain, h.readClosed]
    · simp [acceptedBytes]
    · simp [PipeBuffer.perform, PipeBuffer.drain, deliveredBytes, h.pending]
  | closeWrite =>
    refine ⟨c, ⟨h.pending, h.capacity, h.bounded, ?_, ?_⟩, ?_, ?_⟩
    · simp [PipeBuffer.perform, PipeBuffer.closeWrite]
    · simp [PipeBuffer.perform, PipeBuffer.closeWrite, h.readClosed]
    · simp [acceptedBytes]
    · simp [PipeBuffer.perform, deliveredBytes]
  | closeRead =>
    refine ⟨c, ⟨h.pending, h.capacity, h.bounded, ?_, ?_⟩, ?_, ?_⟩
    · simp [PipeBuffer.perform, PipeBuffer.closeRead, h.writeClosed]
    · simp [PipeBuffer.perform, PipeBuffer.closeRead]
    · simp [acceptedBytes]
    · simp [PipeBuffer.perform, deliveredBytes]

theorem Carries.run {later : List PipeOp} (h : Carries cap ops c p) :
    ∃ c' : Channel UInt8, Carries cap (ops ++ later) c' (p.run later).2 ∧
      c'.sent = c.sent ++ accepted (p.run later).1 ∧
      c'.delivered = c.delivered ++ delivered (p.run later).1 := by
  induction later generalizing ops c p with
  | nil => exact ⟨c, by simpa [PipeBuffer.run, accepted, delivered] using h⟩
  | cons op later ih =>
    obtain ⟨c₁, h₁, hsent₁, hdelivered₁⟩ := h.perform op
    obtain ⟨c₂, h₂, hsent₂, hdelivered₂⟩ := ih h₁
    refine ⟨c₂, ?_, ?_, ?_⟩
    · simpa only [PipeBuffer.run, List.append_assoc, List.singleton_append] using h₂
    · rw [hsent₂, hsent₁, List.append_assoc]
      rfl
    · rw [hdelivered₂, hdelivered₁, List.append_assoc]
      rfl

/-- Any run of a new pipe carries a channel on which the accepted bytes were sent and from
    which the delivered bytes were received. -/
theorem carries_run (cap : Nat) (ops : List PipeOp) :
    ∃ c : Channel UInt8, Carries cap ops c ((new cap).run ops).2 ∧
      c.sent = accepted ((new cap).run ops).1 ∧
      c.delivered = delivered ((new cap).run ops).1 :=
  (carries_new cap).run

/-- For any capacity and any interleaving of the two ends: what readers got is a prefix of
    what writers were told was accepted, the rest is in the buffer, the buffer stays within
    its capacity, the end of the stream is reported only after the writer closed and
    everything was delivered, and nothing is accepted once the reader closed. -/
theorem pipe_is_fifo (capacity : Nat) (ops : List PipeOp) :
    delivered ((new capacity).run ops).1 <+: accepted ((new capacity).run ops).1 ∧
    delivered ((new capacity).run ops).1 ++ ((new capacity).run ops).2.data =
      accepted ((new capacity).run ops).1 ∧
    (((new capacity).run ops).2.data = [] →
      delivered ((new capacity).run ops).1 = accepted ((new capacity).run ops).1) ∧
    ((new capacity).run ops).2.data.length ≤ capacity ∧
    (∀ buf, (((new capacity).run ops).2.read buf).1 = .eof ∨
        ((new capacity).run ops).2.readAll = .eof →
      PipeOp.closeWrite ∈ ops ∧
      delivered ((new capacity).run ops).1 = accepted ((new capacity).run ops).1) ∧
    (PipeOp.closeRead ∈ ops → ∀ buf, ((new capacity).run ops).2.write buf =
      (.brokenPipe, ((new capacity).run ops).2)) := by
  obtain ⟨c, hcarries, hsent, hdelivered⟩ := carries_run capacity ops
  rw [← hsent, ← hdelivered, hcarries.pending]
  refine ⟨c.delivered_prefix, c.delivered_append_pending, Channel.delivered_eq_sent,
    hcarries.pending ▸ hcarries.bounded, ?_, ?_⟩
  · intro buf heof
    have hend : ((new capacity).run ops).2.data = [] ∧
        ((new capacity).run ops).2.writeClosed = true := by
      rcases heof with hread | hall
      · exact read_eof hread
      · exact readAll_eof hall
    obtain ⟨hempty, hclosed⟩ := hend
    exact ⟨hcarries.writeClosed.mp hclosed,
      Channel.delivered_eq_sent (hcarries.pending.symm.trans hempty)⟩
  · intro hclose buf
    exact write_of_readClosed (hcarries.readClosed.mpr hclose) buf

example : ((new 2).run [.write [7, 8, 9], .read [0], .write [9], .closeWrite, .drain]).1.map
    Prod.snd = [.wrote (.wouldBlock 2), .gave (.read 1) [7], .wrote (.written 1), .closed,
      .drained [8, 9]] := by decide

end PipeBuffer

end Wasmsh
