import AudioIntake.Proofs.Sequencer.Custody

/-!
# A flush leaves nothing behind

The counts of a sequencer decide nothing, and neither does its delivery point before the stream has
begun. So a sequencer that has been flushed answers every call as a new one would, and a retransmitted
packet that comes before the stream begins anew is refused and forgotten: late replies to what was
asked for before the flush cannot be seen in anything but their own refusals.
-/

namespace AudioIntake

namespace Tally

theorem add_right_comm (a b c : Tally) : a + b + c = a + c + b := by
  simp only [add_def, Nat.add_right_comm]

/-- The counts of so many packets refused because the stream has not begun. -/
def refusals (n : Nat) : Tally := { zero with received := n, notStarted := n }

theorem refusals_add (m n : Nat) : refusals m + refusals n = refusals (m + n) := rfl

theorem add_refusals (a : Tally) (n : Nat) : a + refusals n =
    { a with received := a.received + n, notStarted := a.notStarted + n } := rfl

end Tally

namespace Sequencer

variable {s t : Sequencer} {p : Packet} {c : Call} {cs : List Call}

/-! ### What a caller sees -/

/-- What a call reports, and what the sequencer answers when it is asked afterwards. -/
structure Reply where
  report : Report
  low? : Option SeqNo
  lead? : SeqNo → Option Int
  inRecovery : Bool

def reply (s : Sequencer) (r : Report) : Reply :=
  { report := r, low? := s.low?, lead? := s.lead?, inRecovery := s.inRecovery }

def replies (s : Sequencer) : List Call → List Reply
  | [] => []
  | c :: cs => (s.call c).1.reply (s.call c).2 :: (s.call c).1.replies cs

/-- Before the stream has begun there is no delivery point to answer with. -/
theorem reply_of_idle (hidle : s.started = false) (r : Report) :
    s.reply r =
      { report := r, low? := none, lead? := fun _ => none, inRecovery := s.inRecovery } := by
  have hlow : s.low? = none := if_neg (Bool.eq_false_iff.mp hidle)
  have hlead : s.lead? = fun _ => none := by
    funext n
    exact if_neg (Bool.eq_false_iff.mp hidle)
  rw [reply, hlow, hlead]

/-! ### Counts decide nothing -/

section Recount

variable (s : Sequencer) (tally : Tally)

theorem deliverHeld_recount : ∃ tally', { s with tally }.deliverHeld =
    ({ s.deliverHeld.1 with tally := tally' }, s.deliverHeld.2) := by
  induction s using deliverHeld.induct generalizing tally with
  | case1 s hnone =>
      refine ⟨tally, ?_⟩
      rw [deliverHeld_of_none hnone]
      exact deliverHeld_of_none (s := { s with tally }) hnone
  | case2 s p hsome t ps hrest ih =>
      obtain ⟨tally', hnext⟩ := ih { tally with delivered := tally.delivered + 1 }
      rw [hrest] at hnext
      refine ⟨tally', ?_⟩
      rw [deliverHeld_of_some hsome hrest]
      exact deliverHeld_of_some (s := { s with tally }) hsome hnext

theorem drain_recount : ∃ tally', { s with tally }.drain =
    ({ s.drain.1 with tally := tally' }, s.drain.2) := by
  obtain ⟨tally', hdelivered⟩ := s.deliverHeld_recount tally
  refine ⟨tally', ?_⟩
  rw [drain, drain, hdelivered]
  simp only [settle_eq]

theorem place_recount (p : Packet) : ∃ tally', { s with tally }.place p =
    ({ (s.place p).1 with tally := tally' }, (s.place p).2) := by
  rw [place, place]
  dsimp only
  split
  · obtain ⟨tally', hdrained⟩ := { s with retries := s.retries.erase p.seqno }.advance.drain_recount
      { tally with delivered := tally.delivered + 1 }
    refine ⟨tally', ?_⟩
    rw [advance] at hdrained ⊢
    rw [hdrained]
    rfl
  · split
    · exact ⟨_, rfl⟩
    · split
      · exact ⟨_, rfl⟩
      · exact ⟨_, rfl⟩

theorem handle_recount (p : Packet) : ∃ tally', { s with tally }.handle p =
    ({ (s.handle p).1 with tally := tally' }, (s.handle p).2) := by
  rw [handle, handle]
  dsimp only
  split
  · exact ⟨_, rfl⟩
  · have hsplit : (!{ s with tally }.countReceived.started && p.retransmitted) =
        (!s.countReceived.started && p.retransmitted) := rfl
    rw [hsplit]
    split
    · exact ⟨_, rfl⟩
    · have hstart : ∃ tally', { s with tally }.countReceived.start p.seqno =
          { s.countReceived.start p.seqno with tally := tally' } := by
        refine ⟨{ tally with received := tally.received + 1 }, ?_⟩
        cases hstarted : s.started <;> simp [start, countReceived, hstarted]
      obtain ⟨tally', hstarted⟩ := hstart
      rw [hstarted]
      exact place_recount _ _ p

theorem discard_recount (p : Packet) : ∃ tally', { s with tally }.discard p =
    ({ (s.discard p).1 with tally := tally' }, (s.discard p).2) := by
  rw [discard, discard]
  dsimp only
  split
  · exact ⟨_, rfl⟩
  · exact ⟨_, rfl⟩

theorem evict_recount (run : Run) : ∃ tally', { s with tally }.evict run =
    ({ (s.evict run).1 with tally := tally' }, (s.evict run).2) := by
  rw [evict, evict]
  dsimp only
  split
  · obtain ⟨tally', hdrained⟩ :=
      { s with
        low := run.stop
        retries := run.seqnos.foldl (fun r n => r.erase n) s.retries }.drain_recount
      { tally with
        evictedGaps := tally.evictedGaps + 1
        evictedPackets := tally.evictedPackets + run.count }
    obtain ⟨tally'', hdrained'⟩ :=
      { s with
        low := run.stop
        retries := run.seqnos.foldl (fun r n => r.erase n) s.retries }.drain_recount
      { s.tally with
        evictedGaps := s.tally.evictedGaps + 1
        evictedPackets := s.tally.evictedPackets + run.count }
    refine ⟨tally', ?_⟩
    dsimp only at hdrained hdrained'
    rw [hdrained, hdrained']
  · exact ⟨_, rfl⟩

theorem escalate_recount (run : Run) : ∃ tally', { s with tally }.escalate run =
    ({ (s.escalate run).1 with tally := tally' }, (s.escalate run).2) := by
  rw [escalate, escalate]
  dsimp only
  split
  · exact s.evict_recount tally run
  · split
    · exact ⟨_, rfl⟩
    · exact ⟨_, rfl⟩

theorem escalateAll_recount (runs : List Run) : ∃ tally', { s with tally }.escalateAll runs =
    ({ (s.escalateAll runs).1 with tally := tally' }, (s.escalateAll runs).2) := by
  induction runs generalizing s tally with
  | nil => exact ⟨_, rfl⟩
  | cons run runs ih =>
      obtain ⟨tally', hone⟩ := s.escalate_recount tally run
      obtain ⟨tally'', hall⟩ := ih (s.escalate run).1 tally'
      refine ⟨tally'', ?_⟩
      rw [escalateAll_cons, escalateAll_cons, hone, hall]

theorem call_recount (c : Call) : ∃ tally', { s with tally }.call c =
    ({ (s.call c).1 with tally := tally' }, (s.call c).2) := by
  cases c with
  | handle p => exact s.handle_recount tally p
  | discard p => exact s.discard_recount tally p
  | tick =>
      change ∃ tally', { s with tally }.tick = ({ s.tick.1 with tally := tally' }, s.tick.2)
      rw [tick, tick]
      dsimp only
      split
      · exact ⟨_, rfl⟩
      · exact s.age.escalateAll_recount tally s.age.runs
  | flush => exact ⟨_, rfl⟩
  | close => exact ⟨_, rfl⟩

theorem run_recount (cs : List Call) : ∃ tally', { s with tally }.run cs =
    ({ (s.run cs).1 with tally := tally' }, (s.run cs).2) := by
  induction cs generalizing s tally with
  | nil => exact ⟨_, rfl⟩
  | cons c cs ih =>
      obtain ⟨tally', hone⟩ := s.call_recount tally c
      obtain ⟨tally'', hall⟩ := ih (s.call c).1 tally'
      refine ⟨tally'', ?_⟩
      rw [run_cons, run_cons, hone, hall]

/-- What has been counted before is counted still, and changes nothing. -/
theorem run_add_tally (cs : List Call) : { s with tally := s.tally + tally }.run cs =
    ({ (s.run cs).1 with tally := (s.run cs).1.tally + tally }, (s.run cs).2) := by
  obtain ⟨tally', hrun⟩ := s.run_recount (s.tally + tally) cs
  have hcounted := (disposes_run { s with tally := s.tally + tally } cs).tally_eq
  rw [hrun] at hcounted
  dsimp only at hcounted
  rw [hrun, hcounted, (disposes_run s cs).tally_eq, Tally.add_right_comm]

end Recount

/-! ### The delivery point of an idle sequencer decides nothing -/

/-- Two sequencers differ in their counts alone, and in the delivery point while there is none. -/
structure Alike (s t : Sequencer) : Prop where
  ladder_eq : t.ladder = s.ladder
  started_eq : t.started = s.started
  closed_eq : t.closed = s.closed
  held_eq : t.held = s.held
  retries_eq : t.retries = s.retries
  low_eq : s.started = true → t.low = s.low

theorem Alike.refl (s : Sequencer) : Alike s s := ⟨rfl, rfl, rfl, rfl, rfl, fun _ => rfl⟩

theorem Alike.recount (s : Sequencer) (tally : Tally) : Alike s { s with tally } :=
  { Alike.refl s with }

/-- Once the stream has begun, only the counts differ. -/
theorem Alike.eq_of_started (h : Alike s t) (hstarted : s.started = true) :
    t = { s with tally := t.tally } := by
  obtain ⟨hladder, hbegun, hclosed, hheld, hretries, hlow⟩ := h
  rw [← hladder, ← hbegun, ← hclosed, ← hheld, ← hretries, ← hlow hstarted]

/-- A retransmitted packet is refused as long as the stream has not begun. -/
theorem handle_of_late (hopen : s.closed = false) (hidle : s.started = false)
    (hcopy : p.retransmitted = true) :
    s.handle p = ({ s with tally := s.tally + .refusals 1 }, refusal p .notStarted) := by
  have hlate : (!s.countReceived.started && p.retransmitted) = true := by
    simp [countReceived, hidle, hcopy]
  rw [handle, if_neg (Bool.eq_false_iff.mp hopen)]
  dsimp only
  rw [if_pos hlate]
  rfl

theorem handle_of_closed (hclosed : s.closed = true) : s.handle p = (s, refusal p .closed) :=
  if_pos hclosed

namespace Alike

theorem handle_of_idle (hs : s.Sound) (ht : t.Sound) (h : Alike s t) (hidle : s.started = false)
    (p : Packet) : Alike (s.handle p).1 (t.handle p).1 ∧ (t.handle p).2 = (s.handle p).2 := by
  have hidle' : t.started = false := h.started_eq.trans hidle
  by_cases hclosed : s.closed = true
  · rw [handle_of_closed hclosed, handle_of_closed (h.closed_eq.trans hclosed)]
    exact ⟨h, rfl⟩
  · have hopen : s.closed = false := Bool.not_eq_true _ ▸ hclosed
    have hopen' : t.closed = false := h.closed_eq.trans hopen
    by_cases hcopy : p.retransmitted = true
    · rw [handle_of_late hopen hidle hcopy, handle_of_late hopen' hidle' hcopy]
      exact ⟨{ h with }, rfl⟩
    · have hprimary : p.retransmitted = false := Bool.not_eq_true _ ▸ hcopy
      rw [Sequencer.handle_of_idle hs hopen hidle hprimary,
        Sequencer.handle_of_idle ht hopen' hidle' hprimary]
      exact ⟨{ h with started_eq := rfl, held_eq := rfl, retries_eq := rfl, low_eq := fun _ => rfl },
        rfl⟩

theorem discard (h : Alike s t) (p : Packet) :
    Alike (s.discard p).1 (t.discard p).1 ∧ (t.discard p).2 = (s.discard p).2 := by
  rw [Sequencer.discard, Sequencer.discard, h.closed_eq]
  by_cases hclosed : s.closed = true
  · rw [if_pos hclosed, if_pos hclosed]
    exact ⟨h, rfl⟩
  · rw [if_neg hclosed, if_neg hclosed]
    exact ⟨{ h with }, rfl⟩

theorem forget (h : Alike s t) : Alike s.forget t.forget :=
  { h with
    started_eq := rfl, held_eq := rfl, retries_eq := rfl, low_eq := fun hstarted => by cases hstarted }

theorem call_of_idle (hs : s.Sound) (ht : t.Sound) (h : Alike s t) (hidle : s.started = false)
    (c : Call) : Alike (s.call c).1 (t.call c).1 ∧ (t.call c).2 = (s.call c).2 := by
  cases c with
  | handle p => exact h.handle_of_idle hs ht hidle p
  | discard p => exact h.discard p
  | tick =>
      have hempty := hs.held_of_idle hidle
      change Alike s.tick.1 t.tick.1 ∧ t.tick.2 = s.tick.2
      rw [tick_of_held_empty hempty, tick_of_held_empty (h.held_eq.trans hempty)]
      exact ⟨h, rfl⟩
  | flush =>
      refine ⟨{ h.forget with }, ?_⟩
      change t.flush.2 = s.flush.2
      rw [flush, flush, h.held_eq]
  | close =>
      refine ⟨{ h.forget with closed_eq := rfl }, ?_⟩
      change t.close.2 = s.close.2
      rw [close, close, h.held_eq]

theorem call (hs : s.Sound) (ht : t.Sound) (h : Alike s t) (c : Call) :
    Alike (s.call c).1 (t.call c).1 ∧ (t.call c).2 = (s.call c).2 := by
  by_cases hstarted : s.started = true
  · obtain ⟨tally, hcall⟩ := s.call_recount t.tally c
    rw [h.eq_of_started hstarted, hcall]
    exact ⟨.recount _ tally, rfl⟩
  · exact h.call_of_idle hs ht (Bool.not_eq_true _ ▸ hstarted) c

theorem run (hs : s.Sound) (ht : t.Sound) (h : Alike s t) (cs : List Call) :
    Alike (s.run cs).1 (t.run cs).1 ∧ (t.run cs).2 = (s.run cs).2 := by
  induction cs generalizing s t with
  | nil => exact ⟨h, rfl⟩
  | cons c cs ih =>
      obtain ⟨hone, hreport⟩ := h.call hs ht c
      obtain ⟨hall, hreports⟩ := ih (sound_call hs c) (sound_call ht c) hone
      rw [run_cons, run_cons, hreport, hreports]
      exact ⟨hall, rfl⟩

theorem reply_eq (h : Alike s t) (r : Report) : t.reply r = s.reply r := by
  by_cases hstarted : s.started = true
  · rw [h.eq_of_started hstarted]
    rfl
  · have hidle : s.started = false := Bool.not_eq_true _ ▸ hstarted
    rw [reply_of_idle hidle, reply_of_idle (h.started_eq.trans hidle), inRecovery, inRecovery,
      h.held_eq]

theorem replies_eq (hs : s.Sound) (ht : t.Sound) (h : Alike s t) (cs : List Call) :
    t.replies cs = s.replies cs := by
  induction cs generalizing s t with
  | nil => rfl
  | cons c cs ih =>
      obtain ⟨hone, hreport⟩ := h.call hs ht c
      rw [replies, replies, hreport, hone.reply_eq, ih (sound_call hs c) (sound_call ht c) hone]

end Alike

/-! ### Late replies -/

/-- A call, or a retransmitted packet that comes in between. -/
inductive Entry where
  | call (call : Call)
  | late (packet : Packet)

/-- A call that neither begins the stream nor ends it. -/
def Call.leavesIdle : Call → Bool
  | .handle p => p.retransmitted
  | .close => false
  | _ => true

namespace Entry

def toCall : Entry → Call
  | call c => c
  | late p => .handle p

def call? : Entry → Option Call
  | call c => some c
  | late _ => none

def late? : Entry → Option Packet
  | call _ => none
  | late p => some p

/-- It may come before the first primary packet. -/
def isEarly : Entry → Bool
  | call c => c.leavesIdle
  | late p => p.retransmitted

end Entry

/-- The answer to a late packet: it is refused, and there is still no delivery point. -/
def lateReply (p : Packet) : Reply :=
  { report := refusal p .notStarted, low? := none, lead? := fun _ => none, inRecovery := false }

/-- The replies to the calls alone, with the answer to each late packet put where it comes. -/
def weave : List Entry → List Reply → List Reply
  | .late p :: es, rs => lateReply p :: weave es rs
  | .call _ :: es, r :: rs => r :: weave es rs
  | _, rs => rs

/-- An open sequencer before the stream has begun. -/
structure Idle (s : Sequencer) : Prop where
  sound : s.Sound
  closed_eq : s.closed = false
  started_eq : s.started = false

namespace Idle

theorem handle (h : Idle s) (hcopy : p.retransmitted = true) :
    s.handle p = ({ s with tally := s.tally + .refusals 1 }, refusal p .notStarted) :=
  handle_of_late h.closed_eq h.started_eq hcopy

theorem withTally (h : Idle s) (tally : Tally) : Idle { s with tally } :=
  { h with sound := h.sound.withTally tally }

theorem reply (h : Idle s) (p : Packet) : s.reply (refusal p .notStarted) = lateReply p := by
  have hrecovery : s.inRecovery = false := by
    rw [inRecovery, h.sound.held_of_idle h.started_eq]
    rfl
  rw [reply_of_idle h.started_eq, hrecovery, lateReply]

theorem call (h : Idle s) (hc : c.leavesIdle = true) : Idle (s.call c).1 := by
  have hsound := sound_call h.sound c
  cases c with
  | handle p =>
      change Idle (s.handle p).1
      rw [h.handle hc]
      exact h.withTally _
  | discard p =>
      obtain ⟨tally, hstate⟩ := s.discard_state p
      change Idle (s.discard p).1
      rw [hstate]
      exact h.withTally tally
  | tick =>
      change Idle s.tick.1
      rw [tick_of_held_empty (h.sound.held_of_idle h.started_eq)]
      exact h
  | flush => exact ⟨hsound, h.closed_eq, rfl⟩
  | close => cases hc

/-- Late packets change nothing but two counts, and nobody else gets another answer. -/
theorem run_early (h : Idle s) {early : List Entry} (hearly : ∀ e ∈ early, e.isEarly = true)
    (rest : List Call) :
    (s.run (early.map Entry.toCall ++ rest)).1 =
        { (s.run (early.filterMap Entry.call? ++ rest)).1 with
          tally := (s.run (early.filterMap Entry.call? ++ rest)).1.tally +
            .refusals (early.filterMap Entry.late?).length } ∧
      s.replies (early.map Entry.toCall ++ rest) =
        weave early (s.replies (early.filterMap Entry.call? ++ rest)) := by
  induction early generalizing s with
  | nil => exact ⟨rfl, rfl⟩
  | cons e early ih =>
      obtain ⟨hhead, htail⟩ := List.forall_mem_cons.mp hearly
      cases e with
      | call c =>
          obtain ⟨hstate, hreplies⟩ := ih (h.call hhead) htail
          refine ⟨hstate, ?_⟩
          exact congrArg ((s.call c).1.reply (s.call c).2 :: ·) hreplies
      | late p =>
          have hcall : s.call (.handle p) =
              ({ s with tally := s.tally + .refusals 1 }, refusal p .notStarted) := h.handle hhead
          obtain ⟨hstate, hreplies⟩ := ih (h.withTally (s.tally + .refusals 1)) htail
          refine ⟨?_, ?_⟩
          · change (s.run (.handle p :: (early.map Entry.toCall ++ rest))).1 = _
            rw [run_cons, hcall]
            dsimp only
            rw [hstate, run_add_tally]
            dsimp only
            rw [Tally.add_assoc, Tally.refusals_add, Nat.add_comm]
            rfl
          · change s.replies (.handle p :: (early.map Entry.toCall ++ rest)) = _
            have hsame := (Alike.recount s (s.tally + .refusals 1)).replies_eq h.sound
              (h.sound.withTally _) (early.filterMap Entry.call? ++ rest)
            rw [replies, hcall]
            dsimp only
            rw [hreplies, hsame, (h.withTally _).reply]
            rfl

end Idle

theorem idle_flush (hs : s.Sound) (hopen : s.closed = false) : Idle s.flush.1 :=
  ⟨sound_call hs .flush, hopen, rfl⟩

theorem alike_flush {ladder : Ladder} (hladder : s.ladder = ladder) (hopen : s.closed = false) :
    Alike (ofLadder ladder) s.flush.1 where
  ladder_eq := hladder
  started_eq := rfl
  closed_eq := hopen
  held_eq := rfl
  retries_eq := rfl
  low_eq hstarted := by cases hstarted

/-- However a sequencer was used before it is flushed, every call afterwards is answered as by a new
one, what is held is the same, and the counts grow by the same amounts. If retransmitted packets come
in between before the first primary packet, each is refused, the calls get the answers they would get
without them, and of the sequencer nothing changes but the counts of packets received and refused. -/
theorem flush_leaves_nothing (ladder : Ladder) (before : List Call)
    (hopen : ((ofLadder ladder).run before).1.closed = false) :
    let s := ((ofLadder ladder).run before).1.flush.1
    let fresh := ofLadder ladder
    s.reply .empty = fresh.reply .empty ∧
      (∀ calls, s.replies calls = fresh.replies calls ∧
        (s.run calls).1.held = (fresh.run calls).1.held ∧
        (s.run calls).1.tally = s.tally + (fresh.run calls).1.tally) ∧
      ∀ early rest, (∀ e ∈ early, e.isEarly = true) →
        let plain := early.filterMap Entry.call? ++ rest
        let mixed := early.map Entry.toCall ++ rest
        let late := (early.filterMap Entry.late?).length
        s.replies mixed = weave early (s.replies plain) ∧
          (s.run mixed).1 =
            { (s.run plain).1 with
              tally :=
                { (s.run plain).1.tally with
                  received := (s.run plain).1.tally.received + late
                  notStarted := (s.run plain).1.tally.notStarted + late } } := by
  intro s fresh
  have hbefore := sound_reached ladder before
  have hladder := ladder_run (sound_ofLadder ladder) before
  have halike : Alike fresh s := alike_flush hladder hopen
  have hidle : Idle s := idle_flush hbefore hopen
  have hfresh : fresh.Sound := sound_ofLadder ladder
  refine ⟨halike.reply_eq _, fun calls => ?_, fun early rest hearly => ?_⟩
  · obtain ⟨hafter, hreport⟩ := halike.run hfresh hidle.sound calls
    refine ⟨halike.replies_eq hfresh hidle.sound calls, hafter.held_eq, ?_⟩
    rw [(disposes_run s calls).tally_eq, (disposes_run fresh calls).tally_eq, hreport]
    exact congrArg (s.tally + ·) (Tally.zero_add _).symm
  · obtain ⟨hstate, hreplies⟩ := hidle.run_early hearly rest
    refine ⟨hreplies, ?_⟩
    rw [hstate, Tally.add_refusals]

/-- Two numbers around the wrap were asked for before the flush; their packets come after it, and a
new stream begins with its own numbers. -/
theorem flush_leaves_nothing_across_wrap :
    let packet := fun n copy => Packet.ofOctets (SeqNo.ofNat n) [] copy
    let ladder : Ladder := { rerequestAt := [1], giveUpAt := 2 }
    let before := [Call.handle (packet 65534 false), .handle (packet 1 false), .tick]
    let early := [Entry.late (packet 65535 true), .call .tick, .late (packet 0 true)]
    let rest := [Call.handle (packet 7 false), .handle (packet 9 false)]
    let s := ((ofLadder ladder).run before).1.flush.1
    ((ofLadder ladder).run before).1.closed = false ∧
      ((ofLadder ladder).run before).2.requests = [{ first := SeqNo.ofNat 65535, count := 2 }] ∧
      (∀ e ∈ early, e.isEarly = true) ∧
      s.replies (early.map Entry.toCall ++ rest) = weave early (s.replies (.tick :: rest)) ∧
      s.replies (.tick :: rest) = (ofLadder ladder).replies (.tick :: rest) ∧
      (s.run (early.map Entry.toCall ++ rest)).1.tally.notStarted = 2 := by
  intro packet ladder before early rest s
  have hopen : ((ofLadder ladder).run before).1.closed = false := by decide +kernel
  have hearly : ∀ e ∈ early, e.isEarly = true := by decide
  obtain ⟨-, hcalls, hlate⟩ := flush_leaves_nothing ladder before hopen
  obtain ⟨hreplies, hstate⟩ := hlate early rest hearly
  refine ⟨hopen, by decide +kernel, hearly, hreplies, (hcalls _).1, ?_⟩
  rw [hstate]
  decide +kernel

end Sequencer

end AudioIntake
