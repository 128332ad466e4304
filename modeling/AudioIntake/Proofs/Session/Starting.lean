import AudioIntake.Proofs.Session.Loops

/-!
# Starting a session

A timer needs a period, and a queue a capacity from one up to the largest there is. The check of the
settings refuses every zero among them, before any port is asked for. It sets no upper bound, and of
what is built only the queues have one. So settings that pass the check start a session, its ports
being free, if and only if neither queue is too large.
-/

namespace AudioIntake

theorem Queue.isSome_ofCapacity?_iff {α : Type} {capacity : Nat} :
    (ofCapacity? capacity : Option (Queue α)).isSome ↔ 1 ≤ capacity ∧ capacity ≤ maxCapacity := by
  rw [ofCapacity?]
  split
  · rename_i hfits
    exact iff_of_true rfl hfits
  · rename_i hfits
    exact iff_of_false (by simp) hfits

theorem Timer.isSome_ofPeriod?_iff (period now : Nat) :
    (ofPeriod? period now).isSome ↔ 0 < period := by
  rw [ofPeriod?]
  split
  · rename_i hzero
    exact iff_of_false (by simp) (by omega)
  · rename_i hzero
    exact iff_of_true rfl (by omega)

namespace StreamSettings

/-- Neither queue is larger than queues can be. -/
def QueuesFit (settings : StreamSettings) : Prop :=
  settings.queueCapacity.toNat ≤ Queue.maxCapacity ∧
    settings.rerequestQueueCapacity.toNat ≤ Queue.maxCapacity

instance (settings : StreamSettings) : Decidable settings.QueuesFit :=
  inferInstanceAs (Decidable (_ ∧ _))

end StreamSettings

theorem SessionSettings.check_of_ofText {text : String} {settings : SessionSettings}
    (h : ofText text = .ok settings) : settings.check = .ok () := by
  rw [ofText] at h
  split at h
  · cases h
  · split at h
    · cases h
    · rename_i hcheck
      cases h
      exact hcheck

namespace Pipeline

variable {settings : StreamSettings} {failsOn : Option SeqNo} {pool : Pool}

theorem isSome_spawn?_iff {queueCapacity period : Nat} {maxLead : Int} {outbox : Queue Rerequest}
    {sequencer : Sequencer} :
    (spawn? queueCapacity period maxLead failsOn pool outbox sequencer).isSome ↔
      (1 ≤ queueCapacity ∧ queueCapacity ≤ Queue.maxCapacity) ∧ 0 < period := by
  rw [← Queue.isSome_ofCapacity?_iff (α := Command), ← Timer.isSome_ofPeriod?_iff period 0, spawn?]
  cases (Queue.ofCapacity? queueCapacity : Option (Queue Command)) <;>
    cases Timer.ofPeriod? period 0 <;> simp

theorem isSome_build?_iff {queueCapacity outboxCapacity period : Nat} {maxLead : Int}
    {sequencer : Sequencer} :
    (build? queueCapacity outboxCapacity period maxLead failsOn pool sequencer).isSome ↔
      (1 ≤ outboxCapacity ∧ outboxCapacity ≤ Queue.maxCapacity) ∧
        (1 ≤ queueCapacity ∧ queueCapacity ≤ Queue.maxCapacity) ∧ 0 < period := by
  rw [← Queue.isSome_ofCapacity?_iff (α := Rerequest), build?]
  cases (Queue.ofCapacity? outboxCapacity : Option (Queue Rerequest)) with
  | none => simp
  | some outbox => exact isSome_spawn?_iff.trans (and_iff_right rfl).symm

/-- Nothing that settings name and that pass the check is zero. -/
theorem pos_of_check (hcheck : settings.check = .ok ()) :
    0 < settings.queueCapacity.toNat ∧ 0 < settings.rerequestQueueCapacity.toNat ∧
      0 < settings.tickIntervalMs.toNat := by
  obtain ⟨hinterval, -, -, -, -, -, hqueue, hrequests⟩ := settings.check_eq_ok_iff.mp hcheck
  exact ⟨UInt64.pos_iff_ne_zero.mpr hqueue, UInt64.pos_iff_ne_zero.mpr hrequests,
    UInt64.pos_iff_ne_zero.mpr hinterval⟩

/-- Of a worker on its own everything can be built but a queue that is too large. -/
theorem isSome_spawn?_of_check (hcheck : settings.check = .ok ()) {outbox : Queue Rerequest}
    {sequencer : Sequencer} :
    (spawn? settings.queueCapacity.toNat settings.tickIntervalMs.toNat settings.maxLead.toInt
      failsOn pool outbox sequencer).isSome ↔
        settings.queueCapacity.toNat ≤ Queue.maxCapacity := by
  obtain ⟨hqueue, -, hinterval⟩ := pos_of_check hcheck
  rw [isSome_spawn?_iff]
  exact ⟨fun h => h.1.2, fun hq => ⟨⟨hqueue, hq⟩, hinterval⟩⟩

/-- Of settings that pass the check everything can be built that is not too large. -/
theorem isSome_build?_of_check (hcheck : settings.check = .ok ()) :
    (build? settings.queueCapacity.toNat settings.rerequestQueueCapacity.toNat
      settings.tickIntervalMs.toNat settings.maxLead.toInt failsOn pool settings.sequencer).isSome ↔
        settings.QueuesFit := by
  obtain ⟨hqueue, hrequests, hinterval⟩ := pos_of_check hcheck
  rw [isSome_build?_iff]
  exact ⟨fun ⟨ho, hq, _⟩ => ⟨hq.2, ho.2⟩,
    fun ⟨hq, ho⟩ => ⟨⟨hrequests, ho⟩, ⟨hqueue, hq⟩, hinterval⟩⟩

theorem start_of_not_fit (hcheck : settings.check = .ok ()) (hfit : ¬settings.QueuesFit) :
    start settings failsOn pool = .error .unbuildable := by
  have hnone : build? settings.queueCapacity.toNat settings.rerequestQueueCapacity.toNat
      settings.tickIntervalMs.toNat settings.maxLead.toInt failsOn pool settings.sequencer = none :=
    Option.not_isSome_iff_eq_none.mp (mt (isSome_build?_of_check hcheck).mp hfit)
  rw [start, hcheck]
  dsimp only
  rw [hnone]

theorem exists_start_iff :
    (∃ p, start settings failsOn pool = .ok p) ↔ settings.check = .ok () ∧ settings.QueuesFit := by
  constructor
  · rintro ⟨p, hp⟩
    have hcheck := (start_eq hp).1
    refine ⟨hcheck, of_not_not fun hfit => ?_⟩
    rw [start_of_not_fit hcheck hfit] at hp
    cases hp
  · rintro ⟨hcheck, hfit⟩
    obtain ⟨p, hp⟩ := Option.isSome_iff_exists.mp ((isSome_build?_of_check hcheck).mpr hfit)
    refine ⟨p, ?_⟩
    rw [start, hcheck]
    dsimp only
    rw [hp]

end Pipeline

namespace Session

variable {s : Session Endpoint} {settings : SessionSettings} {taken : Option Channel}
  {failsOn : Option SeqNo}

/-- A session has everything its settings ask for: two empty queues of the capacities they name, a
timer with their period, and three loops that listen around a worker that runs. -/
structure Started (settings : SessionSettings) (s : Session Endpoint) : Prop where
  queue_eq : s.pipeline.queue =
    { capacity := settings.stream.queueCapacity.toNat, items := [], isOpen := true }
  outbox_eq : s.pipeline.outbox =
    { capacity := settings.stream.rerequestQueueCapacity.toNat, items := [], isOpen := true }
  period_eq : s.pipeline.timer.period = settings.stream.tickIntervalMs.toNat
  has_room : s.pipeline.queue.hasRoom = true ∧ s.pipeline.outbox.hasRoom = true
  period_pos : 0 < s.pipeline.timer.period
  sequencer_eq : s.pipeline.sequencer = settings.stream.sequencer
  maxLead_eq : s.pipeline.maxLead = settings.stream.maxLead.toInt
  running : s.pipeline.phase = .running
  listens : ∀ channel, ∃ buffer, s.loop channel = .listening buffer
  peer_eq : s.peer = settings.controlPeer
  learns_eq : s.learns = settings.controlPeer.isNone

/-- A session starts with these settings, in a pool of the size they ask for. -/
def startWith (settings : SessionSettings) (taken : Option Channel) (failsOn : Option SeqNo) :
    Except SessionError (Session Endpoint) :=
  start settings.stream settings.maxIdleBuffers.toNat settings.controlPeer taken failsOn

/-- How a start with these settings can end, given the port that is in use, if any. -/
structure EndsAsChecked (settings : SessionSettings) (taken : Option Channel)
    (outcome : Except SessionError (Session Endpoint)) : Prop where
  invalid_iff : ∀ setting, outcome = .error (.start (.invalid setting)) ↔
    settings.check = .error setting
  portTaken_iff : ∀ channel, outcome = .error (.portTaken channel) ↔
    settings.check = .ok () ∧ taken = some channel
  unbuildable_iff : outcome = .error (.start .unbuildable) ↔
    settings.check = .ok () ∧ taken = none ∧ ¬settings.stream.QueuesFit
  started_iff : (∃ s, outcome = .ok s) ↔
    settings.check = .ok () ∧ taken = none ∧ settings.stream.QueuesFit
  started : ∀ s, outcome = .ok s → Started settings s

theorem started_of_startWith (hs : startWith settings taken failsOn = .ok s) :
    Started settings s := by
  obtain ⟨p, hp, rfl⟩ := start_eq hs
  obtain ⟨pool, hpipeline⟩ := pipeline_ofPipeline p settings.controlPeer
  obtain ⟨hcheck, hqueue, houtbox, rfl⟩ := Pipeline.start_eq hp
  exact
    { queue_eq := by rw [hpipeline]
      outbox_eq := by rw [hpipeline]
      period_eq := by rw [hpipeline]
      has_room := by
        rw [hpipeline]
        exact ⟨decide_eq_true hqueue, decide_eq_true houtbox⟩
      period_pos := by
        rw [hpipeline]
        exact (Pipeline.pos_of_check hcheck).2.2
      sequencer_eq := by rw [hpipeline]
      maxLead_eq := by rw [hpipeline]
      running := by rw [hpipeline]
      listens := fun channel => by cases channel <;> exact ⟨_, rfl⟩
      peer_eq := rfl
      learns_eq := rfl }

theorem startWith_of_error {setting : InvalidSetting} (hcheck : settings.check = .error setting) :
    startWith settings taken failsOn = .error (.start (.invalid setting)) := by
  rw [SessionSettings.check] at hcheck
  rw [startWith]
  unfold start
  rw [hcheck]

theorem startWith_of_taken {channel : Channel} (hcheck : settings.check = .ok ()) :
    startWith settings (some channel) failsOn = .error (.portTaken channel) := by
  rw [SessionSettings.check] at hcheck
  rw [startWith]
  unfold start
  rw [hcheck]

theorem startWith_of_free (hcheck : settings.check = .ok ()) :
    startWith settings none failsOn =
      ((Pipeline.start settings.stream failsOn
        (.ofSize Pool.defaultBufferSize settings.maxIdleBuffers.toNat)).map
          (ofPipeline · settings.controlPeer)).mapError .start := by
  rw [SessionSettings.check] at hcheck
  rw [startWith]
  unfold start
  rw [hcheck]
  dsimp only
  cases Pipeline.start settings.stream failsOn _ <;> rfl

theorem startWith_of_fit (hcheck : settings.check = .ok ()) (hfit : settings.stream.QueuesFit) :
    ∃ s, startWith settings none failsOn = .ok s := by
  obtain ⟨p, hp⟩ := Pipeline.exists_start_iff.mpr ⟨hcheck, hfit⟩
  refine ⟨ofPipeline p settings.controlPeer, ?_⟩
  rw [startWith_of_free hcheck, hp]
  rfl

theorem startWith_of_not_fit (hcheck : settings.check = .ok ())
    (hfit : ¬settings.stream.QueuesFit) :
    startWith settings none failsOn = .error (.start .unbuildable) := by
  rw [startWith_of_free hcheck, Pipeline.start_of_not_fit hcheck hfit]
  rfl

/-- What is read from a document has passed the check. With settings that pass it a worker on its own,
in front of any outbox, can be built if and only if its queue fits; a worker with a transmitter
behind it if and only if both queues fit; and a session too, if its ports are free. Settings that do
not pass the check are refused before any port is asked for. -/
theorem ends_as_checked (settings : SessionSettings) (taken : Option Channel)
    (failsOn : Option SeqNo) :
    (∀ text, SessionSettings.ofText text = .ok settings → settings.check = .ok ()) ∧
      (settings.check = .ok () → ∀ pool outbox sequencer,
        (Pipeline.spawn? settings.stream.queueCapacity.toNat settings.stream.tickIntervalMs.toNat
          settings.stream.maxLead.toInt failsOn pool outbox sequencer).isSome ↔
            settings.stream.queueCapacity.toNat ≤ Queue.maxCapacity) ∧
      (∀ pool, (∃ p, Pipeline.start settings.stream failsOn pool = .ok p) ↔
        settings.check = .ok () ∧ settings.stream.QueuesFit) ∧
      EndsAsChecked settings taken (startWith settings taken failsOn) := by
  refine ⟨fun text => SessionSettings.check_of_ofText,
    fun hcheck pool outbox sequencer => Pipeline.isSome_spawn?_of_check hcheck,
    fun pool => Pipeline.exists_start_iff, ?_⟩
  have hstarted : ∀ s, startWith settings taken failsOn = .ok s → Started settings s :=
    fun _ => started_of_startWith
  cases hcheck : settings.check with
  | error setting =>
      rw [startWith_of_error hcheck] at hstarted ⊢
      exact
        { invalid_iff := fun other => by simp [hcheck]
          portTaken_iff := fun channel => by simp [hcheck]
          unbuildable_iff := by simp [hcheck]
          started_iff := by simp [hcheck]
          started := hstarted }
  | ok =>
      cases taken with
      | some channel =>
          rw [startWith_of_taken hcheck] at hstarted ⊢
          exact
            { invalid_iff := fun other => by simp [hcheck]
              portTaken_iff := fun channel => by simp [hcheck]
              unbuildable_iff := by simp
              started_iff := by simp
              started := hstarted }
      | none =>
          by_cases hfit : settings.stream.QueuesFit
          · obtain ⟨s, hs⟩ : ∃ s, startWith settings none failsOn = .ok s :=
              startWith_of_fit hcheck hfit
            rw [hs] at hstarted ⊢
            exact
              { invalid_iff := fun other => by simp [hcheck]
                portTaken_iff := fun channel => by simp
                unbuildable_iff := by simp [hfit]
                started_iff := by simp [hcheck, hfit]
                started := hstarted }
          · rw [startWith_of_not_fit hcheck hfit] at hstarted ⊢
            exact
              { invalid_iff := fun other => by simp [hcheck]
                portTaken_iff := fun channel => by simp
                unbuildable_iff := by simp [hcheck, hfit]
                started_iff := by simp [hfit]
                started := hstarted }

/-- A document that asks for a queue of one place too many passes the check. -/
theorem oversized_queue_unbuildable :
    ∃ settings,
      SessionSettings.ofText
          "\x7b\"sequencer\":\x7b\"queue_capacity\":2305843009213693952\x7d\x7d" = .ok settings ∧
        settings.check = .ok () ∧
        startWith settings none none = .error (.start .unbuildable) := by
  refine
    ⟨{ SessionSettings.default with
        stream := { StreamSettings.default with queueCapacity := 2305843009213693952 } },
      by decide +kernel, by decide, ?_⟩
  exact startWith_of_not_fit (by decide) (by decide)

end Session

end AudioIntake
