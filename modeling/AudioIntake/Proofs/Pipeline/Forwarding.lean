import AudioIntake.Pipeline.Sink
import AudioIntake.Proofs.Pipeline.Shutdown
import AudioIntake.Proofs.Sequencer.Asking
import AudioIntake.Proofs.Wire.ControlMessage

/-!
# Rerequests are forwarded one by one

What has been asked for, in the order of the events, has been handed to the sink, stands in the
outbox, or waits for room in it, in this order. So the datagrams of a sink are the rerequests that
were asked for, and their stamps count from 1 on, wrapping around. Neither a sink nor a consumer that
fails gets anything out of step: a tick asks last, so one that is cut short has asked for nothing.
-/

namespace AudioIntake

/-- The datagrams of rerequests that are sent one after the other. -/
def Rerequest.stampAll (rs : List Rerequest) : List Octets :=
  rs.mapIdx fun i r => r.encode (UInt16.ofNat (1 + i))

theorem Rerequest.stampAll_isPrefix (rs more : List Rerequest) :
    stampAll rs <+: stampAll (rs ++ more) := by
  rw [stampAll, stampAll, List.mapIdx_append]
  exact List.prefix_append _ _

namespace Pipeline

variable {p q : Pipeline} {a : Action} {forwarded : List Rerequest}

/-- What has been asked for, in the order of the events. -/
def reported (p : Pipeline) : List Rerequest := p.journal.events.filterMap fun e => e.2.request?

theorem reported_note (p : Pipeline) (es : List Event) :
    (p.note es).reported = p.reported ++ es.filterMap Event.request? := by
  rw [reported, note, List.filterMap_append, List.filterMap_map]
  rfl

/-- A turn that the consumer cuts short has asked for nothing yet. -/
theorem requests_eventsToFailure {es : List Event} (hlast : AsksLast es)
    (hfails : (es.filterMap Event.delivery?).any p.fails = true) :
    (p.eventsToFailure es).filterMap Event.request? = [] := by
  induction es with
  | nil => rfl
  | cons e es ih =>
      obtain ⟨hhead, htail⟩ := List.pairwise_cons.mp hlast
      cases e with
      | output packet =>
          rw [eventsToFailure]
          by_cases hpacket : p.fails packet = true
          · rw [if_pos hpacket]
            rfl
          · rw [if_neg hpacket]
            change (packet :: es.filterMap Event.delivery?).any p.fails = true at hfails
            rw [List.any_cons, Bool.or_eq_true] at hfails
            exact ih htail (hfails.resolve_left hpacket)
      | rerequest request level =>
          have hnone : es.filterMap Event.delivery? = [] := by
            rw [List.filterMap_eq_nil_iff]
            intro e he
            exact (hhead e he).resolve_left (by simp [Event.request?])
          rw [List.filterMap_cons_none rfl, hnone] at hfails
          cases hfails
      | _ => exact ih htail hfails

/-- The first rerequests asked for are `forwarded`, and the others are on their way. -/
structure Forwards (forwarded : List Rerequest) (p : Pipeline) : Prop where
  reported_eq : p.reported = forwarded ++ (p.outbox.items ++ p.pending)
  handed_eq : p.journal.handed = Rerequest.stampAll forwarded
  stamp_eq : p.transmitter.stamp = UInt16.ofNat (1 + forwarded.length)

theorem Keeps.forwards (h : Keeps p q) (hp : Forwards forwarded p) : Forwards forwarded q where
  reported_eq := by
    rw [reported, h.journal_eq, h.outbox_eq, h.pending_eq]
    exact hp.reported_eq
  handed_eq := h.journal_eq ▸ hp.handed_eq
  stamp_eq := h.transmitter_eq ▸ hp.stamp_eq

/-- What is pending is asked for when nothing was pending before. -/
theorem Forwards.ask (hp : Forwards forwarded p) (hpending : p.pending = []) (es : List Event)
    (hq : q.reported = p.reported ++ es.filterMap Event.request?)
    (hasked : q.pending = es.filterMap Event.request?) (houtbox : q.outbox = p.outbox)
    (htransmitter : q.transmitter = p.transmitter) (hhanded : q.journal.handed = p.journal.handed) :
    Forwards forwarded q where
  reported_eq := by
    rw [hq, hp.reported_eq, hasked, houtbox, hpending, List.append_nil, List.append_assoc]
  handed_eq := hhanded.trans hp.handed_eq
  stamp_eq := by rw [htransmitter, hp.stamp_eq]

theorem Acted.forwards (h : Acted p a q) (hs : p.sequencer.Sound) (hopen : p.outbox.isOpen = true)
    (hp : Forwards forwarded p) : ∃ forwarded', Forwards forwarded' q := by
  cases h with
  | idle _ h => exact ⟨forwarded, h.forwards hp⟩
  | @turned turn _ hready _ h =>
      obtain ⟨_, _, hdisposes⟩ := p.sequencer.disposes_turn p.maxLead turn
      have hpending := pending_of_isReady hready
      refine ⟨forwarded, h.forwards ?_⟩
      exact hp.ask hpending (p.report turn).events (p.reported_note _) hdisposes.requests_eq
        rfl rfl rfl
  | @failed turn _ hready hfails h =>
      have hlast := Sequencer.asksLast_turn hs p.maxLead turn
      have hnone := requests_eventsToFailure hlast hfails
      have hpending := pending_of_isReady hready
      refine ⟨forwarded, h.forwards ?_⟩
      refine hp.ask hpending _ (p.reported_note _) ?_ rfl rfl rfl
      exact hpending.trans hnone.symm
  | stopped _ _ h => exact ⟨forwarded, h.forwards ⟨hp.reported_eq, hp.handed_eq, hp.stamp_eq⟩⟩
  | @offered r rest _ hpending _ h =>
      refine ⟨forwarded, h.forwards ?_⟩
      refine { hp with reported_eq := ?_ }
      rw [if_pos hopen]
      change p.reported = forwarded ++ ((p.outbox.items ++ [r]) ++ rest)
      rw [hp.reported_eq, hpending, List.append_assoc p.outbox.items, List.singleton_append]
  | @transmitted r rest _ houtbox h =>
      refine ⟨forwarded ++ [r], h.forwards ?_⟩
      exact
        { reported_eq := by
            change p.reported = forwarded ++ [r] ++ (rest ++ p.pending)
            rw [hp.reported_eq, houtbox, List.append_assoc]
            rfl
          handed_eq := by
            dsimp only
            rw [hp.handed_eq, Transmitter.encode, hp.stamp_eq, Rerequest.stampAll,
              Rerequest.stampAll, List.mapIdx_concat]
          stamp_eq := by
            dsimp only
            rw [Transmitter.encode, hp.stamp_eq, List.length_append, ← Nat.add_assoc]
            exact (UInt16.ofNat_add _ 1).symm }

/-! ### What is kept by every action -/

theorem Acted.sound (h : Acted p a q) (hs : p.sequencer.Sound) : q.sequencer.Sound := by
  cases h with
  | idle _ h | offered _ _ _ h | transmitted _ _ h => exact h.sequencer_eq ▸ hs
  | @turned turn _ _ _ h => exact h.sequencer_eq ▸ Sequencer.sound_turn hs p.maxLead turn
  | failed _ _ _ h => exact h.sequencer_eq ▸ Sequencer.sound_forget _ _ _
  | stopped _ _ h => exact h.sequencer_eq ▸ Sequencer.sound_call hs .close

theorem Acted.outbox_isOpen (h : Acted p a q) : q.outbox.isOpen = p.outbox.isOpen := by
  cases h with
  | idle _ h | turned _ _ _ h | failed _ _ _ h | stopped _ _ h =>
      exact congrArg Queue.isOpen h.outbox_eq
  | transmitted _ _ h => rw [h.outbox_eq]
  | offered _ _ _ h =>
      rw [h.outbox_eq]
      dsimp only
      split <;> rfl

/-- Everything asked for is on its way, to a transmitter that is still there. -/
structure Forwarding (p : Pipeline) : Prop where
  sound : p.sequencer.Sound
  isOpen : p.outbox.isOpen = true
  tidy : p.Tidy
  forwards : ∃ forwarded, Forwards forwarded p

theorem forwarding_act (h : p.Forwarding) (a : Action) : (p.act a).Forwarding := by
  have hacted := p.acted_act a
  obtain ⟨forwarded, hforwards⟩ := h.forwards
  exact
    { sound := hacted.sound h.sound
      isOpen := hacted.outbox_isOpen.trans h.isOpen
      tidy := tidy_act h.tidy a
      forwards := hacted.forwards h.sound h.isOpen hforwards }

theorem forwarding_run (h : p.Forwarding) (actions : List Action) : (p.run actions).Forwarding := by
  apply run_induction (P := Forwarding)
  · exact fun q a hq => forwarding_act hq a
  · exact h

theorem forwarding_build {queueCapacity outboxCapacity period : Nat} {maxLead : Int}
    {failsOn : Option SeqNo} {pool : Pool} {ladder : Ladder}
    (h : build? queueCapacity outboxCapacity period maxLead failsOn pool (.ofLadder ladder) =
      some p) : p.Forwarding ∧ p.journal = .empty := by
  obtain ⟨-, hspawn⟩ := build?_eq h
  obtain ⟨-, -, rfl⟩ := spawn?_eq hspawn
  refine ⟨?_, rfl⟩
  exact
    { sound := Sequencer.sound_ofLadder ladder
      isOpen := rfl
      tidy := .of_open rfl rfl
      forwards := ⟨[], rfl, rfl, rfl⟩ }

/-! ### What the sink is given -/

/-- The sink has been given, stamped from 1 on, the first of the rerequests asked for, and all of them
once the worker is gone and the outbox is empty. Each can be read from its datagram. -/
structure SendsAll (p : Pipeline) : Prop where
  handed_isPrefix : p.journal.handed <+: Rerequest.stampAll p.reported
  handed_eq : p.phase ≠ .running → p.outbox.items = [] →
    p.journal.handed = Rerequest.stampAll p.reported
  decoded : ∀ i d, p.journal.handed[i]? = some d → ∃ r, p.reported[i]? = some r ∧
    Rerequest.decode d = .ok (UInt16.ofNat (1 + i), r) ∧ ControlMessage.decode d = .ok (.rerequest r)

theorem Forwarding.sendsAll (h : p.Forwarding) : p.SendsAll := by
  obtain ⟨forwarded, hforwards⟩ := h.forwards
  have hfirst : p.journal.handed <+: Rerequest.stampAll p.reported := by
    rw [hforwards.reported_eq, hforwards.handed_eq]
    exact Rerequest.stampAll_isPrefix _ _
  refine ⟨hfirst, ?_, ?_⟩
  · intro hgone hempty
    rw [hforwards.reported_eq, hforwards.handed_eq, hempty, (h.tidy.vacant hgone).pending_eq,
      List.append_nil, List.append_nil]
  · intro i d hd
    obtain ⟨rest, hrest⟩ := hfirst
    rw [← List.getElem?_append_left (List.getElem?_eq_some_iff.mp hd).1, hrest,
      Rerequest.stampAll, List.getElem?_mapIdx, Option.map_eq_some_iff] at hd
    obtain ⟨r, hr, rfl⟩ := hd
    exact ⟨r, hr, r.decode_encode _, r.control_decode_encode _⟩

theorem emitted_of_ne (p : Pipeline) (h : a ≠ .transmit) : p.emitted a = [] := by
  cases a with
  | transmit => exact absurd rfl h
  | _ => rfl

theorem handed_absorb (p : Pipeline) (next : Sequencer) (r : Report) :
    (p.absorb next r).finishIfIdle.journal.handed = p.journal.handed := by
  rw [(keeps_finishIfIdle _).journal_eq, absorb]
  split <;> rfl

theorem handed_act (p : Pipeline) (a : Action) :
    (p.act a).journal.handed = p.journal.handed ++ p.emitted a := by
  have hmoved := p.moved_act a
  generalize p.act a = q at hmoved ⊢
  cases hmoved with
  | idle _ hsilent => rw [hsilent, List.append_nil]
  | worked | ticked => exact (handed_absorb _ _ _).trans (List.append_nil _).symm
  | dropped | offered =>
      rw [(keeps_finishIfIdle _).journal_eq]
      exact (List.append_nil _).symm
  | transmitted hitems =>
      rw [emitted, hitems]
      rfl
  | _ => exact (List.append_nil _).symm

end Pipeline

namespace Outlet

theorem pipeline_run (o : Outlet) (steps : List (Pipeline.Action × SinkAnswer)) :
    (o.run steps).pipeline = o.pipeline.run (steps.map Prod.fst) := by
  induction steps generalizing o with
  | nil => rfl
  | cons step steps ih => exact ih (o.act step.1 step.2)

/-- Every datagram is noted, whatever the sink answered. -/
theorem length_log_run {o : Outlet} (h : o.log.length = o.pipeline.journal.handed.length)
    (steps : List (Pipeline.Action × SinkAnswer)) :
    (o.run steps).log.length = (o.run steps).pipeline.journal.handed.length := by
  induction steps generalizing o with
  | nil => exact h
  | cons step steps ih =>
      obtain ⟨a, answer⟩ := step
      have hone : (o.noted answer a).length = (o.pipeline.emitted a).length := by
        cases a <;> simp [noted, Pipeline.emitted]
      have hstep : (o.act a answer).log.length =
          (o.act a answer).pipeline.journal.handed.length := by
        rw [act, List.length_append, Pipeline.handed_act, List.length_append, h, hone]
      exact ih hstep

end Outlet

end AudioIntake
