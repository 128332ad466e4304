import AudioIntake.Proofs.Buffer.Shelves

/-!
# What a packet shows of its buffer

The window of a packet is laid anew by writing, which closes it, and by setting a length, which opens
it on the front of the buffer; from there on octets are only taken off its front. So what a packet
shows is told by the buffer as last written, the edit that laid the window last and what was dropped
since. A buffer may be full of earlier datagrams, but nothing of them is seen before a length is set.
-/

namespace AudioIntake

namespace Packet

/-- What the owner of a packet can do to it. -/
inductive Edit where
  /-- Octets further back are written along with whatever is to stand in front of them. -/
  | overwrite (data : Octets)
  | setLength (n : Nat)
  | dropFront (n : Nat)
  | setSeqno (seqno : SeqNo)
  | setRetransmitted (retransmitted : Bool)

/-- The window is laid anew. -/
def Edit.reframes : Edit → Bool
  | overwrite _ => true
  | setLength _ => true
  | dropFront _ => false
  | setSeqno _ => false
  | setRetransmitted _ => false

/-- How many octets are taken off the front of the content. -/
def Edit.dropped : Edit → Nat
  | dropFront n => n
  | overwrite _ => 0
  | setLength _ => 0
  | setSeqno _ => 0
  | setRetransmitted _ => 0

def edit (p : Packet) : Edit → Packet
  | .overwrite data => p.overwrite data
  | .setLength n => p.setLength n
  | .dropFront n => p.dropFront n
  | .setSeqno seqno => p.setSeqno seqno
  | .setRetransmitted retransmitted => p.setRetransmitted retransmitted

def edits (p : Packet) (es : List Edit) : Packet := es.foldl edit p

/-- A buffer after all that is written over its front. -/
def written (buffer : Octets) : List Edit → Octets
  | [] => buffer
  | .overwrite data :: es => written (data.take buffer.length ++ buffer.drop data.length) es
  | _ :: es => written buffer es

def droppedBy : List Edit → Nat
  | [] => 0
  | e :: es => e.dropped + droppedBy es

variable {size maxIdle n : Nat} {p : Packet} {data shown : Octets} {e : Edit} {es after : List Edit}

/-! ### One edit -/

theorem content_receive (p : Packet) (data : Octets) :
    (p.receive data).content = data.take p.buffer.length := by
  have hfront : (data.take p.buffer.length).length = min data.length p.buffer.length := by
    rw [List.length_take, Nat.min_comm]
  simp only [receive, setLength, content, length_buffer_overwrite, List.drop_zero]
  rw [Nat.min_eq_left (Nat.min_le_right _ _), overwrite, ← hfront, List.take_left]

theorem content_dropFront (p : Packet) (n : Nat) : (p.dropFront n).content = p.content.drop n := by
  have hstop : (p.buffer.take p.stop).length ≤ p.stop := List.length_take_le _ _
  simp only [dropFront, content, List.drop_drop]
  by_cases hn : p.start + n ≤ p.stop
  · rw [Nat.min_eq_left hn]
  · rw [List.drop_of_length_le (by omega), List.drop_of_length_le (by omega)]

theorem content_setLength (p : Packet) (n : Nat) :
    (p.setLength n).content = p.buffer.take (min n p.buffer.length) := List.drop_zero

theorem content_overwrite (p : Packet) (data : Octets) : (p.overwrite data).content = [] := rfl

theorem content_ofOctets (seqno : SeqNo) (data : Octets) (retransmitted : Bool) :
    (ofOctets seqno data retransmitted).content = data := List.take_length

theorem framed_lend (buffer : Octets) : (lend buffer).Framed where
  start_le_stop := Nat.le_refl _
  stop_le_length := Nat.zero_le _

theorem framed_ofOctets (seqno : SeqNo) (data : Octets) (retransmitted : Bool) :
    (ofOctets seqno data retransmitted).Framed where
  start_le_stop := Nat.zero_le _
  stop_le_length := Nat.le_refl _

theorem Framed.edit (h : p.Framed) (e : Edit) : (p.edit e).Framed := by
  cases e with
  | overwrite data => exact ⟨Nat.le_refl _, Nat.zero_le _⟩
  | setLength n => exact ⟨Nat.zero_le _, Nat.min_le_right _ _⟩
  | dropFront n => exact ⟨Nat.min_le_right _ _, h.stop_le_length⟩
  | setSeqno seqno => exact ⟨h.start_le_stop, h.stop_le_length⟩
  | setRetransmitted retransmitted => exact ⟨h.start_le_stop, h.stop_le_length⟩

/-- An edit that leaves the window where it is takes octets off its front. -/
theorem content_edit (p : Packet) (hkept : e.reframes = false) :
    (p.edit e).content = p.content.drop e.dropped := by
  cases e with
  | overwrite data => cases hkept
  | setLength n => cases hkept
  | dropFront n => exact p.content_dropFront n
  | setSeqno seqno => rfl
  | setRetransmitted retransmitted => rfl

/-! ### Any number of edits -/

theorem edits_append (p : Packet) (before after : List Edit) :
    p.edits (before ++ after) = (p.edits before).edits after := List.foldl_append

theorem Framed.edits (h : p.Framed) (es : List Edit) : (p.edits es).Framed := by
  induction es generalizing p with
  | nil => exact h
  | cons e es ih => exact ih (h.edit e)

theorem buffer_edits (p : Packet) (es : List Edit) : (p.edits es).buffer = written p.buffer es := by
  induction es generalizing p with
  | nil => rfl
  | cons e es ih => cases e <;> exact ih _

theorem length_written (buffer : Octets) (es : List Edit) :
    (written buffer es).length = buffer.length := by
  induction es generalizing buffer with
  | nil => rfl
  | cons e es ih =>
      cases e with
      | overwrite data =>
          rw [written, ih, List.length_append, List.length_take, List.length_drop]
          omega
      | setLength n => exact ih buffer
      | dropFront n => exact ih buffer
      | setSeqno seqno => exact ih buffer
      | setRetransmitted retransmitted => exact ih buffer

theorem content_edits (p : Packet) (hkept : ∀ e ∈ es, e.reframes = false) :
    (p.edits es).content = p.content.drop (droppedBy es) := by
  induction es generalizing p with
  | nil => rfl
  | cons e es ih =>
      obtain ⟨he, hes⟩ := List.forall_mem_cons.mp hkept
      have hrest := ih (p.edit e) hes
      rw [p.content_edit he, List.drop_drop] at hrest
      exact hrest

/-- What a packet that showed `shown` at first has come to after these edits. -/
structure Tracked (p : Packet) (shown : Octets) (es : List Edit) : Prop where
  framed : (p.edits es).Framed
  length_eq : (p.edits es).length = (p.edits es).content.length
  payload_eq : (p.edits es).payload = (p.edits es).content.drop 12
  /-- The window has never been laid anew. -/
  content_of_kept : (∀ e ∈ es, e.reframes = false) → (p.edits es).content = shown.drop (droppedBy es)
  /-- The window was laid last by setting a length. -/
  content_of_setLength : ∀ before n after, es = before ++ .setLength n :: after →
    (∀ e ∈ after, e.reframes = false) → (p.edits es).content =
      ((written p.buffer before).take (min n p.buffer.length)).drop (droppedBy after)
  /-- The window was laid last by writing. -/
  content_of_overwrite : ∀ before data after, es = before ++ .overwrite data :: after →
    (∀ e ∈ after, e.reframes = false) → (p.edits es).content = []

theorem Framed.tracked (h : p.Framed) (es : List Edit) : Tracked p p.content es where
  framed := h.edits es
  length_eq := (length_content (h.edits es)).symm
  payload_eq := rfl
  content_of_kept hkept := p.content_edits hkept
  content_of_setLength := by
    rintro before n after rfl hkept
    have hlaid := ((p.edits before).setLength n).content_edits hkept
    rw [content_setLength, buffer_edits, length_written] at hlaid
    rw [edits_append]
    exact hlaid
  content_of_overwrite := by
    rintro before data after rfl hkept
    have hlaid := ((p.edits before).overwrite data).content_edits hkept
    rw [content_overwrite, List.drop_nil] at hlaid
    rw [edits_append]
    exact hlaid

theorem exists_acquire_eq_lend (pool : Pool) : ∃ buffer, pool.acquire.1 = lend buffer := by
  rw [Pool.acquire]
  split <;> exact ⟨_, rfl⟩

/-- What fits into the buffer is shown as it was written, whatever was done before. -/
theorem content_fill (p : Packet) (hfits : data.length ≤ p.buffer.length) :
    ((p.overwrite data).setLength data.length).content = data := by
  have hreceived := p.content_receive data
  rwa [receive, Nat.min_eq_left hfits, List.take_of_length_le hfits] at hreceived

/-- Whatever became of a pool before, a packet taken from it shows nothing, has number 0 and is not
marked as sent again, and whatever is done to it, a datagram that fits into a buffer is shown as it
was written. Of that packet and of one made of octets of its own the window stays inside the buffer,
and what it shows is the front of the buffer as last written, up to the length set last, less what was
dropped since. -/
theorem window_follows_edits (size maxIdle : Nat) (actions : List Shelf.Action) (es : List Edit)
    (seqno : SeqNo) (data : Octets) (retransmitted : Bool) :
    let lent := ((Shelf.ofPool (.ofSize size maxIdle)).run actions).pool.acquire.1
    (lent.content = [] ∧ lent.length = 0 ∧ lent.seqno = SeqNo.ofNat 0 ∧
      lent.retransmitted = false ∧ lent.buffer.length = size) ∧
      (∀ datagram : Octets, datagram.length ≤ size →
        (((lent.edits es).overwrite datagram).setLength datagram.length).content = datagram) ∧
      Tracked lent [] es ∧
      Tracked (ofOctets seqno data retransmitted) data es := by
  intro lent
  have hlength : lent.buffer.length = size :=
    ((Shelf.booked_ofPool size maxIdle).run actions).accounted.length_acquire
  obtain ⟨buffer, hlent⟩ : ∃ buffer, lent = lend buffer := exists_acquire_eq_lend _
  refine ⟨?_, ?_, ?_, ?_⟩
  · rw [hlent] at hlength ⊢
    exact ⟨rfl, rfl, rfl, rfl, hlength⟩
  · intro datagram hfits
    apply content_fill
    rwa [buffer_edits, length_written, hlength]
  · rw [hlent]
    exact (framed_lend buffer).tracked es
  · have htracked := (framed_ofOctets seqno data retransmitted).tracked es
    rwa [content_ofOctets] at htracked

/-- A buffer of four octets that has held another datagram before. -/
theorem window_follows_edits_of_reuse :
    let lent := ((Shelf.ofPool (.ofSize 4 1)).run
      [.acquire 0, .overwrite 0 [1, 2, 3, 4], .release 0]).pool.acquire.1
    lent.buffer = [1, 2, 3, 4] ∧ lent.content = [] ∧
      ((lent.overwrite [9]).setLength 1).content = [9] ∧
      (lent.edits [.overwrite [9], .dropFront 2, .setLength 7, .dropFront 1]).content =
        [2, 3, 4] := by
  intro lent
  obtain ⟨⟨hempty, -⟩, hfill, -, -⟩ := window_follows_edits 4 1
    [.acquire 0, .overwrite 0 [1, 2, 3, 4], .release 0] [] (SeqNo.ofNat 0) [] false
  obtain ⟨-, -, htracked, -⟩ := window_follows_edits 4 1
    [.acquire 0, .overwrite 0 [1, 2, 3, 4], .release 0]
    [.overwrite [9], .dropFront 2, .setLength 7, .dropFront 1] (SeqNo.ofNat 0) [] false
  have hbuffer : lent.buffer = [1, 2, 3, 4] := by decide +kernel
  have hshown := htracked.content_of_setLength [.overwrite [9], .dropFront 2] 7 [.dropFront 1] rfl
    (by decide)
  refine ⟨hbuffer, hempty, hfill [9] (by decide), hshown.trans ?_⟩
  change ((written lent.buffer _).take (min 7 lent.buffer.length)).drop _ = _
  rw [hbuffer]
  rfl

end Packet

end AudioIntake
