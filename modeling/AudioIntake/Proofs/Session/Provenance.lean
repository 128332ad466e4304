import AudioIntake.Proofs.Session.Ownership
import Mathlib.Data.List.Forall2
import Mathlib.Data.List.Perm.Basic

/-!
# Where delivered audio comes from

Every packet on its way to the consumer stems from a datagram of its own. `Traced` assigns to each of
a list of packets the place of its datagram among those received, no place twice. What a loop makes
of a datagram enters the list together with the datagram; from then on packets only move, and those
given to the consumer stay accounted for.
-/

namespace AudioIntake

/-- The number of the packet is the one in its third and fourth octet. -/
def Packet.IsNumbered (p : Packet) : Prop :=
  p.seqno.val = Octets.value ((p.content.drop 2).take 2)

/-- What a packet shows of the datagram it stems from, on each of the channels. -/
def Stems : Channel × Octets → Packet → Prop
  | (.data, d), p => 12 ≤ d.length ∧ d.payloadCode? = some 96 ∧ p.content = d ∧
      p.retransmitted = false ∧ p.IsNumbered
  | (.control, d), p => 16 ≤ d.length ∧ d.payloadCode? = some 86 ∧
      Octets.value ((d.drop 2).take 2) ≠ 1 ∧ p.content = d.drop 4 ∧ p.retransmitted = true ∧
      p.IsNumbered
  | (.timing, _), _ => False

/-- The packet stems from the datagram in the `i`-th place of those received. -/
def StemsAt (received : List (Channel × Octets)) (i : Nat) (p : Packet) : Prop :=
  ∃ e, received[i]? = some e ∧ Stems e p

/-- Each of the packets stems from a datagram of its own. -/
def Traced (received : List (Channel × Octets)) (ps : List Packet) : Prop :=
  ∃ origins : List Nat, origins.Nodup ∧ List.Forall₂ (StemsAt received) origins ps

section Tracing

variable {received : List (Channel × Octets)} {ps qs : List Packet} {p : Packet} {i : Nat}

theorem StemsAt.lt (h : StemsAt received i p) : i < received.length := by
  obtain ⟨e, he, -⟩ := h
  exact (List.getElem?_eq_some_iff.mp he).1

theorem StemsAt.append (h : StemsAt received i p) (more : List (Channel × Octets)) :
    StemsAt (received ++ more) i p := by
  have hi := h.lt
  obtain ⟨e, he, hp⟩ := h
  exact ⟨e, by rwa [List.getElem?_append_left hi], hp⟩

namespace Traced

theorem perm (h : Traced received ps) (hqs : qs.Perm ps) : Traced received qs := by
  obtain ⟨origins, hnodup, hstem⟩ := h
  obtain ⟨origins', hstem', hperm⟩ := List.perm_comp_forall₂ hqs hstem.flip
  exact ⟨origins', hperm.nodup_iff.mpr hnodup, hstem'.flip⟩

theorem left (h : Traced received (ps ++ qs)) : Traced received ps := by
  obtain ⟨origins, hnodup, hstem⟩ := h
  exact ⟨origins.take ps.length, hnodup.sublist (List.take_sublist _ _),
    List.forall₂_take_append origins ps qs hstem⟩

theorem subperm (h : Traced received ps) (hqs : qs.Subperm ps) : Traced received qs := by
  obtain ⟨qs', hperm, hsublist⟩ := hqs
  obtain ⟨rest, hrest⟩ := hsublist.exists_perm_append
  exact ((h.perm hrest.symm).left).perm hperm.symm

theorem append (h : Traced received ps) (more : List (Channel × Octets)) :
    Traced (received ++ more) ps := by
  obtain ⟨origins, hnodup, hstem⟩ := h
  exact ⟨origins, hnodup, hstem.imp fun _ _ hp => hp.append more⟩

/-- A datagram is received and becomes a packet. -/
theorem receive (h : Traced received ps) {e : Channel × Octets} (hp : Stems e p) :
    Traced (received ++ [e]) (p :: ps) := by
  obtain ⟨origins, hnodup, hstem⟩ := h
  -- The new place lies behind all the places taken.
  have hnew : received.length ∉ origins := by
    intro hmem
    obtain ⟨j, hj, hget⟩ := List.getElem_of_mem hmem
    have hlt := ((List.forall₂_iff_get.mp hstem).2 j hj (hstem.length_eq ▸ hj)).lt
    rw [List.get_eq_getElem, hget] at hlt
    exact Nat.lt_irrefl _ hlt
  refine ⟨received.length :: origins, List.nodup_cons.mpr ⟨hnew, hnodup⟩, .cons ?_ ?_⟩
  · exact ⟨e, by simp, hp⟩
  · exact hstem.imp fun _ _ hp => hp.append [e]

end Traced

end Tracing

namespace Session

variable {α : Type} {s t : Session α} {size : Nat} {channel : Channel} {l : Loop} {p audio : Packet}
  {received : List (Channel × Octets)}

/-- A loop hands over what it has just received, and not what was in the buffer before. -/
theorem stems_of_judge {datagram : Octets} (hsize : p.buffer.length = size)
    (h : judge channel (p.receive datagram) = .sequence audio) :
    Stems (channel, datagram.take size) audio := by
  have hcontent : (p.receive datagram).content = datagram.take size := by
    rw [Packet.content_receive, hsize]
  cases channel with
  | data =>
      obtain ⟨hlength, hcode, rfl⟩ := Judgement.ofData_eq_sequence_iff.mp h
      rw [← hcontent]
      exact ⟨hlength, hcode, rfl, rfl, SeqNo.val_field _⟩
  | control =>
      obtain ⟨hlength, hcode, hstatus, rfl⟩ := Judgement.of_sequence_ofControl h
      have hdropped := (p.receive datagram).content_dropFront ControlMessage.recoveryOffset
      rw [← hcontent]
      refine ⟨hlength, hcode, hstatus, hdropped, rfl, ?_⟩
      rw [Packet.IsNumbered]
      change (SeqNo.field _ 6 _).val = Octets.value
        ((((p.receive datagram).dropFront ControlMessage.recoveryOffset).content.drop 2).take 2)
      rw [SeqNo.val_field, hdropped, List.drop_drop]
      rfl
  | timing => cases h

/-- The datagrams that the loops take from their sockets in a run. -/
def heardIn (s : Session α) : List (Action α) → List (Channel × Octets)
  | [] => []
  | a :: as => s.heard a ++ (s.act a).heardIn as

/-! ### Packets on their way -/

/-- What has come to the pipeline: the packets in it and those it has given to the consumer. -/
def entrusted (p : Pipeline) : List Packet := p.packets ++ p.consumed

/-- The packets with the other loops and with the pipeline. -/
def abroad (s : Session α) (channel : Channel) : List Packet :=
  s.elsewhere Loop.waiting channel ++ entrusted s.pipeline

/-- Every packet that the consumer has been given, or may yet be given, is traced. -/
def Vouched (received : List (Channel × Octets)) (s : Session α) : Prop :=
  Traced received (s.gather Loop.waiting ++ entrusted s.pipeline)

namespace Vouched

theorem at_loop (h : Vouched received s) (channel : Channel) :
    Traced received ((s.loop channel).waiting ++ s.abroad channel) := by
  apply h.perm
  rw [abroad, ← List.append_assoc]
  exact (s.gather_perm Loop.waiting channel).symm.append_right _

theorem setLoop (h : Traced received (l.waiting ++ s.abroad channel)) :
    Vouched received (s.setLoop channel l) := by
  rw [Vouched, pipeline_setLoop]
  apply h.perm
  rw [abroad, ← List.append_assoc]
  exact (s.gather_setLoop_perm Loop.waiting channel l).append_right _

theorem listen (h : Traced received (s.abroad channel)) : Vouched received (s.listen channel) := by
  apply setLoop
  exact h

/-- An action of the pipeline makes no packets. -/
theorem act {rest : List Packet} {p : Pipeline} (a : Pipeline.Action)
    (h : Traced received (p.entering a ++ (rest ++ entrusted p))) :
    Traced received (rest ++ entrusted (p.act a)) := by
  obtain ⟨new, gone, hpasses⟩ := p.passes_act a
  apply h.subperm
  refine List.subperm_iff_count.mpr fun packet => ?_
  have hcustody := List.perm_iff_count.mp hpasses.custody packet
  have hnew := List.subperm_iff_count.mp hpasses.new_subperm packet
  simp only [entrusted, hpasses.consumed_eq, List.count_append] at hcustody hnew ⊢
  omega

end Vouched

theorem abroad_learn (s : Session α) (channel : Channel) (source : α) (other : Channel) :
    (s.learn channel source).abroad other = s.abroad other := by
  rw [abroad, elsewhere_learn, pipeline_learn, abroad]

theorem vouched_stepped {new : List (Channel × Octets)}
    (hbalanced : Balanced Pool.defaultBufferSize s) (h : Vouched received s)
    (hstep : Stepped s channel new t) : Vouched (received ++ new) t := by
  have hlends := hbalanced.at_loop channel
  have hat := (h.at_loop channel).append new
  have hsubmitted : ∀ c, s.loop channel = .handing c →
      s.pipeline.entering (.submit c) = c.packets → Traced (received ++ new)
        (s.elsewhere Loop.waiting channel ++ entrusted (s.pipeline.submit c)) := by
    intro c hloop hentering
    apply Vouched.act (.submit c)
    rw [hentering]
    rwa [hloop] at hat
  cases hstep with
  | still =>
      rw [List.append_nil]
      exact h
  | @sequenced buffer audio datagram source hloop hjudge =>
      have hold := h.at_loop channel
      rw [hloop] at hlends hold
      have hstems := stems_of_judge (hlends.length_buffer buffer List.mem_cons_self) hjudge
      apply Vouched.setLoop
      rw [abroad_learn]
      exact hold.receive hstems
  | flushed source hloop =>
      rw [hloop] at hat
      apply Vouched.setLoop
      exact (s.abroad_learn channel source channel).symm ▸ hat
  | discarded source hloop =>
      rw [hloop] at hat
      apply Vouched.listen
      exact (s.abroad_learn channel source channel).symm ▸ hat
  | @entered c hloop _ hroom =>
      apply Vouched.listen
      exact hsubmitted c hloop (Pipeline.entering_of_room hroom c)
  | @refused c hloop hclosed =>
      apply Vouched.setLoop
      exact hsubmitted c hloop (Pipeline.entering_of_closed hclosed c)
  | left hloop =>
      rw [hloop] at hat
      apply Vouched.setLoop
      exact hat

theorem vouched_act (hbalanced : Balanced Pool.defaultBufferSize s) (h : Vouched received s)
    (a : Action α) : Vouched (received ++ s.heard a) (s.act a) := by
  have hacted := s.acted_act a
  generalize s.heard a = new at hacted ⊢
  generalize s.act a = t at hacted ⊢
  have hnothing : received ++ [] = received := List.append_nil received
  cases hacted with
  | own b _ hentering =>
      rw [hnothing]
      apply Vouched.act b
      rw [hentering]
      exact h
  | transmitted =>
      rw [hnothing]
      exact Vouched.act .transmit h
  | cancelled =>
      rw [hnothing]
      exact h
  | stepped channel hstep => exact vouched_stepped hbalanced h hstep

theorem vouched_run (hbalanced : Balanced Pool.defaultBufferSize s) (h : Vouched received s)
    (actions : List (Action α)) : Vouched (received ++ s.heardIn actions) (s.run actions) := by
  induction actions generalizing s received with
  | nil => exact (List.append_nil received).symm ▸ h
  | cons a actions ih =>
      have hrest := ih (balanced_act hbalanced a) (vouched_act hbalanced h a)
      rwa [List.append_assoc] at hrest

/-! ### What the consumer is given -/

section Started

variable {settings : StreamSettings} {maxIdle : Nat} {peer : Option α} {taken : Option Channel}
  {failsOn : Option SeqNo}

theorem vouched_start (h : start settings maxIdle peer taken failsOn = .ok s) : Vouched [] s := by
  obtain ⟨p, hp, rfl⟩ := start_eq h
  obtain ⟨pool, hpipeline⟩ := pipeline_ofPipeline p peer
  obtain ⟨-, -, -, rfl⟩ := Pipeline.start_eq hp
  refine ⟨[], List.nodup_nil, ?_⟩
  rw [hpipeline, entrusted, Pipeline.packets, StreamSettings.sequencer, Sequencer.ofLadder,
    Tables.values_empty]
  exact .nil

/-- The packets that the consumer completes are among those it is given. -/
theorem delivered_sublist_consumed (h : start settings maxIdle peer taken failsOn = .ok s)
    (actions : List (Action α)) : ((s.run actions).pipeline.journal.delivered.map Prod.snd).Sublist
      (s.run actions).pipeline.consumed := by
  obtain ⟨p, hp, rfl⟩ := start_eq h
  obtain ⟨-, -, -, rfl⟩ := Pipeline.start_eq hp
  apply run_induction (P := fun p => (p.journal.delivered.map Prod.snd).Sublist p.consumed)
  · intro p a hp
    obtain ⟨new, gone, hpasses⟩ := p.passes_act a
    obtain ⟨kept, hkept, hdelivered⟩ := hpasses.delivered_eq
    rw [hdelivered, hpasses.consumed_eq]
    exact hp.append hkept.sublist
  · exact fun p pool hp => hp
  · exact .slnil

/-- Each packet that the consumer has been given stems from a datagram of its own, received before:
it shows exactly that datagram, or that datagram without its first four octets, and carries the
number in it. -/
theorem consumed_traced (hstart : start settings maxIdle peer taken failsOn = .ok s)
    (actions : List (Action α)) :
    let t := s.run actions
    Traced (s.heardIn actions) t.pipeline.consumed ∧
      (t.pipeline.journal.delivered.map Prod.snd).Sublist t.pipeline.consumed := by
  intro t
  have hvouched := vouched_run (balanced_start hstart) (vouched_start hstart) actions
  constructor
  · apply hvouched.subperm
    apply List.Sublist.subperm
    exact List.sublist_append_of_sublist_right (List.sublist_append_right _ _)
  · exact delivered_sublist_consumed hstart actions

end Started

/-- A lost packet is recovered on the control channel, and behind the last datagram the buffer still
holds the end of the first, longer one. -/
theorem consumed_traced_after_recovery :
    let audio := fun n length => [0x80, 0x60] ++ (SeqNo.ofNat n).octets ++ List.replicate length 7
    let reply := fun n => [0x80, 0xd6, 0, 0] ++ audio n 8
    let data := fun n length => [Action.arrive .data (audio n length) (), .hand .data, .work]
    let recovery := [Action.arrive .control (reply 65535) (), .hand .control, .work]
    let actions := data 65534 20 ++ data 0 8 ++ recovery ++ data 1 8
    let settings := StreamSettings.default
    ∃ s : Session Unit, start settings 8 none none none = .ok s ∧
      Traced (s.heardIn actions) (s.run actions).pipeline.consumed ∧
      (s.heardIn actions).map Prod.snd = [audio 65534 20, audio 0 8, reply 65535, audio 1 8] ∧
      (s.run actions).pipeline.consumed.map Packet.content =
        [audio 65534 20, audio 65535 8, audio 0 8, audio 1 8] ∧
      (s.run actions).pipeline.consumed.map Packet.retransmitted = [false, true, false, false] ∧
      (s.run actions).pipeline.consumed.map (fun p => p.buffer.count 7) = [20, 8, 8, 20] := by
  intro audio reply data recovery actions settings
  have htraced := consumed_traced (rfl : start settings 8 (none : Option Unit) none none = .ok _)
  exact ⟨_, rfl, (htraced actions).1, by decide +kernel, by decide +kernel, by decide +kernel,
    by decide +kernel⟩

end Session

end AudioIntake
