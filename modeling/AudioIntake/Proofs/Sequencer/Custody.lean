import AudioIntake.Proofs.Sequencer.Turns
import Mathlib.Algebra.GroupWithZero.Nat

/-!
# Custody of packets

A packet that is handed in is in one place at a time: it has been delivered, it is held, or it has
been released. `Disposes` follows the packets through a step and sets the two accounts of it side by
side, the counts that the sequencer keeps and the events that it reports. Every function of the
sequencer has one such lemma, and steps compose.
-/

namespace AudioIntake

namespace Event

def disposition? : Event → Option Disposition
  | input _ _ disposition => some disposition
  | _ => none

def request? : Event → Option Rerequest
  | rerequest request _ => some request
  | _ => none

/-- The length of a run that is given up. -/
def evicted? : Event → Option Nat
  | evict _ count => some count
  | _ => none

/-- The packet that is turned away, on a sequencer that is open. -/
def refused? : Event → Option (SeqNo × Bool)
  | input seqno retransmitted disposition =>
    if disposition ∈ [.stale, .duplicate, .notStarted] then some (seqno, retransmitted) else none
  | _ => none

end Event

def Turn.packets : Turn → List Packet
  | .packet p => [p]
  | _ => []

def Packet.tag (p : Packet) : SeqNo × Bool := (p.seqno, p.retransmitted)

attribute [ext] Tally

namespace Tally

instance : Add Tally where
  add a b :=
    { received := a.received + b.received
      delivered := a.delivered + b.delivered
      stale := a.stale + b.stale
      duplicates := a.duplicates + b.duplicates
      notStarted := a.notStarted + b.notStarted
      rerequests := a.rerequests + b.rerequests
      evictedGaps := a.evictedGaps + b.evictedGaps
      evictedPackets := a.evictedPackets + b.evictedPackets
      flushes := a.flushes + b.flushes }

theorem add_def (a b : Tally) : a + b =
    ⟨a.received + b.received, a.delivered + b.delivered, a.stale + b.stale,
      a.duplicates + b.duplicates, a.notStarted + b.notStarted, a.rerequests + b.rerequests,
      a.evictedGaps + b.evictedGaps, a.evictedPackets + b.evictedPackets,
      a.flushes + b.flushes⟩ := rfl

/-- The counts that an observer of the events arrives at. -/
def ofEvents (es : List Event) : Tally where
  received := es.countP fun e => e.disposition?.any (· ≠ .closed)
  delivered := es.countP fun e => e.delivery?.isSome
  stale := es.countP fun e => e.disposition? = some .stale
  duplicates := es.countP fun e => e.disposition? = some .duplicate
  notStarted := es.countP fun e => e.disposition? = some .notStarted
  rerequests := es.countP fun e => e.request?.isSome
  evictedGaps := es.countP fun e => e.evicted?.isSome
  evictedPackets := (es.filterMap Event.evicted?).sum
  flushes := es.count .flush

theorem ofEvents_append (es es' : List Event) :
    ofEvents (es ++ es') = ofEvents es + ofEvents es' := by
  rw [add_def]
  ext <;> simp [ofEvents]

theorem add_assoc (a b c : Tally) : a + b + c = a + (b + c) := by
  simp only [add_def, Nat.add_assoc]

theorem zero_add (a : Tally) : zero + a = a := by
  simp only [add_def, zero, Nat.zero_add]

theorem ofEvents_output (ps : List Packet) :
    ofEvents (ps.map .output) = { zero with delivered := ps.length } := by
  induction ps with
  | nil => rfl
  | cons p ps ih =>
      rw [List.map_cons, ← List.singleton_append, ofEvents_append, ih, add_def]
      ext <;> simp [ofEvents, zero, Event.disposition?, Event.delivery?, Event.request?,
        Event.evicted?, List.filterMap_cons, Nat.add_comm]

/-- The packets turned away are the ones that are stale, second copies or too early to begin with. -/
theorem length_refused (es : List Event) :
    (es.filterMap Event.refused?).length =
      (ofEvents es).stale + (ofEvents es).duplicates + (ofEvents es).notStarted := by
  induction es with
  | nil => rfl
  | cons e es ih =>
      have hsplit := ofEvents_append [e] es
      rw [List.singleton_append, add_def] at hsplit
      rw [hsplit]
      dsimp only
      have hone : ([e].filterMap Event.refused?).length =
          (ofEvents [e]).stale + (ofEvents [e]).duplicates + (ofEvents [e]).notStarted := by
        cases e with
        | input seqno retransmitted disposition => cases disposition <;> rfl
        | _ => rfl
      rw [← List.singleton_append, List.filterMap_append, List.length_append, hone, ih]
      omega

end Tally

namespace Sequencer

variable {s t u : Sequencer} {r r' : Report} {p : Packet} {run : Run} {runs : List Run}
  {handed handed' dropped dropped' late late' : List Packet}

/-- What becomes of the packets `handed` in, and of those held, in a step from `s` to `t`. Those
released were turned away, or `dropped` although they were held, or too `late` because the sequencer
was closed. -/
structure Disposes (s t : Sequencer) (r : Report) (handed dropped late : List Packet) : Prop where
  custody : (s.held.values ++ handed).Perm (r.delivered ++ t.held.values ++ r.released)
  released_perm : ∃ refused, r.released.Perm (refused ++ dropped ++ late) ∧
    refused.map Packet.tag = r.events.filterMap Event.refused?
  received_eq : (Tally.ofEvents r.events).received + late.length = handed.length
  tally_eq : t.tally = s.tally + .ofEvents r.events
  requests_eq : r.requests = r.events.filterMap Event.request?

namespace Disposes

theorem trans (h : Disposes s t r handed dropped late)
    (h' : Disposes t u r' handed' dropped' late') :
    Disposes s u (r ++ r') (handed ++ handed') (dropped ++ dropped') (late ++ late') where
  custody := by
    have hcount := List.perm_iff_count.mp h.custody
    have hcount' := List.perm_iff_count.mp h'.custody
    refine List.perm_iff_count.mpr fun p => ?_
    specialize hcount p
    specialize hcount' p
    simp only [Report.delivered_append, Report.append_released, List.count_append] at hcount hcount' ⊢
    omega
  released_perm := by
    obtain ⟨refused, hperm, htags⟩ := h.released_perm
    obtain ⟨refused', hperm', htags'⟩ := h'.released_perm
    refine ⟨refused ++ refused', List.perm_iff_count.mpr fun p => ?_, ?_⟩
    · have hcount := List.perm_iff_count.mp hperm p
      have hcount' := List.perm_iff_count.mp hperm' p
      simp only [Report.append_released, List.count_append] at hcount hcount' ⊢
      omega
    · rw [List.map_append, htags, htags', Report.append_events, List.filterMap_append]
  received_eq := by
    have hreceived := h.received_eq
    have hreceived' := h'.received_eq
    rw [Report.append_events, Tally.ofEvents_append, Tally.add_def]
    simp only [List.length_append]
    omega
  tally_eq := by
    rw [h'.tally_eq, h.tally_eq, Report.append_events, Tally.ofEvents_append, Tally.add_assoc]
  requests_eq := by
    rw [Report.append_requests, h.requests_eq, h'.requests_eq, Report.append_events,
      List.filterMap_append]

/-- Nothing is handed in and nothing moves. -/
theorem still (es : List Event) (hheld : t.held = s.held)
    (hdelivered : es.filterMap Event.delivery? = []) (hrefused : es.filterMap Event.refused? = [])
    (hreceived : (Tally.ofEvents es).received = 0)
    (htally : t.tally = s.tally + .ofEvents es) :
    Disposes s t { events := es, requests := es.filterMap Event.request?, released := [] }
      [] [] [] where
  custody := by
    rw [Report.delivered, hdelivered, hheld, List.nil_append]
  released_perm := ⟨[], .refl _, hrefused.symm⟩
  received_eq := hreceived
  tally_eq := htally
  requests_eq := rfl

/-- A packet is turned away and counted. -/
theorem refused {d : Disposition} (hheld : t.held = s.held)
    (hd : d ∈ [.stale, .duplicate, .notStarted])
    (htally : t.tally = s.tally + .ofEvents [.input p.seqno p.retransmitted d]) :
    Disposes s t (refusal p d) [p] [] [] where
  custody := by
    rw [hheld]
    exact .refl _
  released_perm := by
    refine ⟨[p], .refl _, ?_⟩
    simp [refusal, Event.refused?, hd, Packet.tag]
  received_eq := by
    have hopen : d ≠ .closed := by
      rintro rfl
      simp at hd
    simp [refusal, Tally.ofEvents, Event.disposition?, hopen]
  tally_eq := htally
  requests_eq := rfl

end Disposes

/-! ### Delivering -/

theorem values_deliverHeld (s : Sequencer) :
    s.held.values.Perm (s.deliverHeld.2 ++ s.deliverHeld.1.held.values) := by
  induction s using deliverHeld.induct with
  | case1 s hnone =>
      rw [deliverHeld_of_none hnone]
      exact .refl _
  | case2 s p hsome t ps hrest ih =>
      rw [deliverHeld_of_some hsome hrest]
      rw [hrest] at ih
      exact (Tables.values_perm_of_getElem? hsome).trans (ih.cons p)

theorem disposes_drain (s : Sequencer) :
    Disposes s s.drain.1 { events := s.drain.2.map .output, requests := [], released := [] }
      [] [] [] where
  custody := by
    have hheld : s.drain.1.held = s.deliverHeld.1.held := by
      change s.deliverHeld.1.settle.held = _
      rw [settle_eq]
    have hdelivered : s.drain.2 = s.deliverHeld.2 := rfl
    rw [Report.delivered, filterMap_delivery_output, hheld, hdelivered, List.append_nil,
      List.append_nil]
    exact s.values_deliverHeld
  released_perm := by
    refine ⟨[], .refl _, ?_⟩
    simp [List.filterMap_map, Function.comp_def, Event.refused?]
  received_eq := by rw [Tally.ofEvents_output]; rfl
  tally_eq := by rw [Tally.ofEvents_output, (drained_drain s).tally_eq]; rfl
  requests_eq := by simp [List.filterMap_map, Function.comp_def, Event.request?]

/-! ### Packets -/

/-- A packet that has been counted is placed. -/
theorem disposes_place (hheld : t.held = s.held)
    (htally : t.tally = { s.tally with received := s.tally.received + 1 }) (p : Packet) :
    Disposes s (t.place p).1 (t.place p).2 [p] [] [] := by
  rw [place]
  dsimp only
  split
  · have harrived : Disposes s { t with retries := t.retries.erase p.seqno }.advance
        { events := [.input p.seqno p.retransmitted .delivered, .output p]
          requests := []
          released := [] } [p] [] [] :=
      { custody := by
          rw [advance, hheld, List.append_nil]
          exact List.perm_append_comm
        released_perm := ⟨[], .refl _, rfl⟩
        received_eq := rfl
        tally_eq := by rw [advance, htally]; rfl
        requests_eq := rfl }
    exact harrived.trans (disposes_drain _)
  · split
    · exact .refused hheld (by decide) (by rw [htally]; rfl)
    · split
      · exact .refused hheld (by decide) (by rw [htally]; rfl)
      · rename_i hfree
        exact
          { custody := by
              have hnot : p.seqno ∉ s.held := by
                rw [← hheld]
                exact fun h => hfree (Std.ExtTreeMap.contains_iff_mem.mpr h)
              rw [hheld]
              simpa [Report.delivered, Event.delivery?] using
                List.perm_append_comm.trans (Tables.values_insert_perm hnot p).symm
            released_perm := ⟨[], .refl _, rfl⟩
            received_eq := rfl
            tally_eq := by rw [htally]; rfl
            requests_eq := rfl }

/-- What comes after the sequencer has been closed. -/
def tooLate (s : Sequencer) (ps : List Packet) : List Packet := if s.closed then ps else []

theorem disposes_handle (s : Sequencer) (p : Packet) :
    Disposes s (s.handle p).1 (s.handle p).2 [p] [] (s.tooLate [p]) := by
  rw [handle, tooLate]
  split
  · exact
      { custody := .refl _
        released_perm := ⟨[], .refl _, rfl⟩
        received_eq := rfl
        tally_eq := rfl
        requests_eq := rfl }
  · dsimp only
    split
    · exact .refused rfl (by decide) rfl
    · apply disposes_place
      · rw [start]
        split <;> rfl
      · rw [start]
        split <;> rfl

theorem disposes_discard (s : Sequencer) (p : Packet) :
    Disposes s (s.discard p).1 (s.discard p).2 [p] [] (s.tooLate [p]) := by
  rw [discard, tooLate]
  split
  · exact
      { custody := .refl _
        released_perm := ⟨[], .refl _, rfl⟩
        received_eq := rfl
        tally_eq := rfl
        requests_eq := rfl }
  · exact .refused rfl (by decide) rfl

/-! ### Ticks -/

theorem disposes_evict (s : Sequencer) (run : Run) :
    Disposes s (s.evict run).1 (s.evict run).2 [] [] [] := by
  rw [evict]
  dsimp only
  split
  · have hgiven : Disposes s
        { s with
          low := run.stop
          retries := run.seqnos.foldl (fun r n => r.erase n) s.retries
          tally :=
            { s.tally with
              evictedGaps := s.tally.evictedGaps + 1
              evictedPackets := s.tally.evictedPackets + run.count } }
        { events := [.evict run.first run.count], requests := [], released := [] } [] [] [] :=
      .still [.evict run.first run.count] rfl rfl rfl rfl rfl
    exact hgiven.trans (disposes_drain _)
  · exact .still [.evict run.first run.count] rfl rfl rfl rfl rfl

theorem disposes_escalate (s : Sequencer) (run : Run) :
    Disposes s (s.escalate run).1 (s.escalate run).2 [] [] [] := by
  rw [escalate]
  split
  · exact disposes_evict s run
  · split
    · exact .still [.rerequest run.request run.level] rfl rfl rfl rfl rfl
    · exact .still [] rfl rfl rfl rfl rfl

theorem disposes_escalateAll (s : Sequencer) (runs : List Run) :
    Disposes s (s.escalateAll runs).1 (s.escalateAll runs).2 [] [] [] := by
  induction runs generalizing s with
  | nil => exact .still [] rfl rfl rfl rfl rfl
  | cons run runs ih => exact (disposes_escalate s run).trans (ih _)

theorem disposes_tick (s : Sequencer) : Disposes s s.tick.1 s.tick.2 [] [] [] := by
  rw [tick]
  split
  · exact .still [] rfl rfl rfl rfl rfl
  · have haged : Disposes s s.age .empty [] [] [] := .still [] rfl rfl rfl rfl rfl
    exact haged.trans (disposes_escalateAll s.age s.age.runs)

/-! ### Calls -/

def Call.packets : Call → List Packet
  | .handle p => [p]
  | .discard p => [p]
  | _ => []

/-- What a call lets go of although it was held. -/
def cleared (s : Sequencer) : Call → List Packet
  | .flush => s.held.values
  | .close => s.held.values
  | _ => []

theorem disposes_call (s : Sequencer) (c : Call) :
    Disposes s (s.call c).1 (s.call c).2 c.packets (s.cleared c) (s.tooLate c.packets) := by
  have hnone : s.tooLate [] = [] := by
    rw [tooLate]
    split <;> rfl
  cases c with
  | handle p => exact disposes_handle s p
  | discard p => exact disposes_discard s p
  | tick =>
      change Disposes s s.tick.1 s.tick.2 [] [] (s.tooLate [])
      rw [hnone]
      exact disposes_tick s
  | flush =>
      change Disposes s s.flush.1 s.flush.2 [] s.held.values (s.tooLate [])
      rw [hnone]
      exact
        { custody := by
            simp [flush, forget, Report.delivered, List.filterMap_cons, Event.delivery?]
          released_perm := ⟨[], by simp [flush], rfl⟩
          received_eq := rfl
          tally_eq := rfl
          requests_eq := rfl }
  | close =>
      change Disposes s s.close.1 s.close.2 [] s.held.values (s.tooLate [])
      rw [hnone]
      exact
        { custody := by simp [close, forget, Report.delivered, Report.empty]
          released_perm := ⟨[], by simp [close], rfl⟩
          received_eq := rfl
          tally_eq := rfl
          requests_eq := rfl }

/-! ### Turns -/

theorem disposes_turn (s : Sequencer) (maxLead : Int) (turn : Turn) :
    ∃ dropped late, Disposes s (s.turn maxLead turn).1 (s.turn maxLead turn).2 turn.packets
      dropped late := by
  cases turn with
  | packet p =>
      have hadmitted := s.admitted_accept maxLead p
      change ∃ dropped late, Disposes s (s.accept maxLead p).1 (s.accept maxLead p).2 [p] dropped late
      generalize (s.accept maxLead p).1 = t at hadmitted ⊢
      generalize (s.accept maxLead p).2 = r at hadmitted ⊢
      cases hadmitted with
      | discarded => exact ⟨_, _, disposes_discard s p⟩
      | flushed => exact ⟨_, _, (disposes_call s .flush).trans (disposes_handle s.flush.1 p)⟩
      | handled => exact ⟨_, _, disposes_handle s p⟩
  | flush => exact ⟨_, _, disposes_call s .flush⟩
  | tick => exact ⟨_, _, disposes_tick s⟩

/-! ### Runs of calls -/

def handedIn (cs : List Call) : List Packet := cs.flatMap Call.packets

/-- What the flushes and closes of a run let go of although it was held. -/
def clearedIn (s : Sequencer) : List Call → List Packet
  | [] => []
  | c :: cs => s.cleared c ++ (s.call c).1.clearedIn cs

def tooLateIn (s : Sequencer) : List Call → List Packet
  | [] => []
  | c :: cs => s.tooLate c.packets ++ (s.call c).1.tooLateIn cs

theorem disposes_run (s : Sequencer) (cs : List Call) :
    Disposes s (s.run cs).1 (s.run cs).2 (handedIn cs) (s.clearedIn cs) (s.tooLateIn cs) := by
  induction cs generalizing s with
  | nil => exact .still [] rfl rfl rfl rfl rfl
  | cons c cs ih => exact (disposes_call s c).trans (ih _)

end Sequencer

end AudioIntake
