import AudioIntake.Proofs.Settings.Extents

/-!
# Partial settings documents

A document gives some of the settings, in any order and among members of other names, and the stream's
object inside it does the same. What is given replaces the default, what is not stays; only then is
the result checked. A setting that is given twice, at either level, makes the document unreadable.
-/

namespace AudioIntake

open Grammar

/-- A member of the object with the settings of a stream. -/
inductive StreamMember where
  | tickIntervalMs (ms : UInt64)
  | rerequestTicks (ticks : List UInt32)
  | giveUpTick (tick : UInt32)
  | maxLead (lead : Int32)
  | queueCapacity (capacity : UInt64)
  | rerequestQueueCapacity (capacity : UInt64)
  /-- A member that is no setting, whatever its value. -/
  | other (name : String)

namespace StreamMember

def name : StreamMember → String
  | tickIntervalMs _ => "tick_interval_ms"
  | rerequestTicks _ => "rerequest_ticks"
  | giveUpTick _ => "give_up_tick"
  | maxLead _ => "max_lead"
  | queueCapacity _ => "queue_capacity"
  | rerequestQueueCapacity _ => "rerequest_queue_capacity"
  | other name => name

def isKnown : StreamMember → Bool
  | other _ => false
  | _ => true

/-- The texts that the value of a member may have. -/
def Spells : StreamMember → List Char → Prop
  | tickIntervalMs ms => Decimal (fun w : UInt64 => w.toNat) ms
  | rerequestTicks ticks => Listed (Decimal fun w : UInt32 => w.toNat) ticks
  | giveUpTick tick => Decimal (fun w : UInt32 => w.toNat) tick
  | maxLead lead => Decimal Int32.toInt lead
  | queueCapacity capacity => Decimal (fun w : UInt64 => w.toNat) capacity
  | rerequestQueueCapacity capacity => Decimal (fun w : UInt64 => w.toNat) capacity
  | other name => fun cs => name ∉ StreamSettings.fields.map Field.name ∧ WellFormed cs

def put : StreamMember → StreamSettings → StreamSettings
  | tickIntervalMs ms => fun s => { s with tickIntervalMs := ms }
  | rerequestTicks ticks => fun s => { s with rerequestTicks := ticks }
  | giveUpTick tick => fun s => { s with giveUpTick := tick }
  | maxLead lead => fun s => { s with maxLead := lead }
  | queueCapacity capacity => fun s => { s with queueCapacity := capacity }
  | rerequestQueueCapacity capacity => fun s => { s with rerequestQueueCapacity := capacity }
  | other _ => id

/-- The defaults with the given settings in their place. -/
def settings (members : List StreamMember) : StreamSettings :=
  members.foldl (fun s m => m.put s) .default

/-- No setting is given twice. -/
def GivenOnce (members : List StreamMember) : Prop := ((members.filter isKnown).map name).Nodup

instance (members : List StreamMember) : Decidable (GivenOnce members) :=
  inferInstanceAs (Decidable (List.Nodup _))

/-- The same settings are given, in any order and among any other members. -/
def Agree (members members' : List StreamMember) : Prop :=
  (members.filter isKnown).Perm (members'.filter isKnown)

end StreamMember

/-- A member of the object with the settings of a session. -/
inductive SessionMember where
  | bindAddress (address : IPAddress)
  | dataPort (port : UInt16)
  | controlPort (port : UInt16)
  | timingPort (port : UInt16)
  | controlPeer (peer : Option Endpoint)
  | maxIdleBuffers (count : UInt64)
  | stream (members : List StreamMember)
  /-- A member that is no setting, whatever its value. -/
  | other (name : String)

namespace SessionMember

def name : SessionMember → String
  | bindAddress _ => "bind_addr"
  | dataPort _ => "data_port"
  | controlPort _ => "control_port"
  | timingPort _ => "timing_port"
  | controlPeer _ => "control_peer"
  | maxIdleBuffers _ => "arena_max_pooled"
  | stream _ => "sequencer"
  | other name => name

def isKnown : SessionMember → Bool
  | other _ => false
  | _ => true

/-- The texts that the value of a member may have. -/
def Spells : SessionMember → List Char → Prop
  | bindAddress address => Quoted IPAddress.ofText? address
  | dataPort port => Decimal (fun w : UInt16 => w.toNat) port
  | controlPort port => Decimal (fun w : UInt16 => w.toNat) port
  | timingPort port => Decimal (fun w : UInt16 => w.toNat) port
  | controlPeer peer => Nullable (Quoted Endpoint.ofText?) peer
  | maxIdleBuffers count => Decimal (fun w : UInt64 => w.toNat) count
  | stream members => Object StreamMember.name StreamMember.Spells members
  | other name => fun cs => name ∉ SessionSettings.fields.map Field.name ∧ WellFormed cs

def put : SessionMember → SessionSettings → SessionSettings
  | bindAddress address => fun s => { s with bindAddress := address }
  | dataPort port => fun s => { s with dataPort := port }
  | controlPort port => fun s => { s with controlPort := port }
  | timingPort port => fun s => { s with timingPort := port }
  | controlPeer peer => fun s => { s with controlPeer := peer }
  | maxIdleBuffers count => fun s => { s with maxIdleBuffers := count }
  | stream members => fun s => { s with stream := StreamMember.settings members }
  | other _ => id

/-- The members of the object inside, if there is one. -/
def inner : SessionMember → List StreamMember
  | stream members => members
  | _ => []

/-- The defaults with the given settings in their place. -/
def settings (members : List SessionMember) : SessionSettings :=
  members.foldl (fun s m => m.put s) .default

/-- No setting is given twice, neither here nor in an object inside. -/
def GivenOnce (members : List SessionMember) : Prop :=
  ((members.filter isKnown).map name).Nodup ∧ ∀ m ∈ members, StreamMember.GivenOnce m.inner

instance (members : List SessionMember) : Decidable (GivenOnce members) :=
  inferInstanceAs (Decidable (_ ∧ _))

/-- The members are the same but for the order and the other members of an object inside. -/
inductive Alike : SessionMember → SessionMember → Prop where
  | refl (m : SessionMember) : Alike m m
  | stream {members members' : List StreamMember} (h : StreamMember.Agree members members') :
      Alike (.stream members) (.stream members')

/-- The same settings are given, at both levels in any order and among any other members. -/
def Agree (members members' : List SessionMember) : Prop :=
  ∃ order, (members.filter isKnown).Perm order ∧
    List.Forall₂ Alike order (members'.filter isKnown)

/-- The text is an object with these members, and blanks wherever they may stand. -/
inductive Document (members : List SessionMember) (text : String) : Prop where
  | intro {b object b' : List Char} (hb : Blanks b) (hb' : Blanks b')
      (h : Object name Spells members object) (htext : text.toList = b ++ (object ++ b'))

/-- The object gives a setting twice, itself or in an object inside, whatever the values are. -/
inductive GivesTwice (object : List Char) : Prop where
  | here (h : Repeats (SessionSettings.fields.map Field.name) object)
  | inside {members : List (String × List Char)} {value : List Char}
      (h : Object Prod.fst Raw members object) (hvalue : ("sequencer", value) ∈ members)
      (htwice : Repeats (StreamSettings.fields.map Field.name) value)

end SessionMember

/-- Settings that have been read are used if they pass the check. -/
def SessionSettings.checked (s : SessionSettings) : Except SettingsError SessionSettings :=
  match s.check with
  | .error setting => .error (.invalid setting)
  | .ok () => .ok s

/-! ### Members of a stream -/

namespace StreamMember

variable {members members' : List StreamMember} {m m' : StreamMember}

theorem answers : Field.Answers StreamSettings.fields name isKnown Spells (fun _ => True) put where
  scan_of_known m hm := by
    cases m with
    | tickIntervalMs => exact ⟨_, rfl, fun _ _ _ => Field.scan_of Codec.reads_word64 _ _ _⟩
    | rerequestTicks =>
        exact ⟨_, rfl, fun _ _ _ => Field.scan_of
          (Codec.reads_word32.list (Codec.neverOpens_decimal (by decide))) _ _ _⟩
    | giveUpTick => exact ⟨_, rfl, fun _ _ _ => Field.scan_of Codec.reads_word32 _ _ _⟩
    | maxLead => exact ⟨_, rfl, fun _ _ _ => Field.scan_of Codec.reads_signed32 _ _ _⟩
    | queueCapacity => exact ⟨_, rfl, fun _ _ _ => Field.scan_of Codec.reads_word64 _ _ _⟩
    | rerequestQueueCapacity => exact ⟨_, rfl, fun _ _ _ => Field.scan_of Codec.reads_word64 _ _ _⟩
    | other => cases hm
  skipped_of_unknown m hm cs hcs := by
    cases m with
    | other => exact hcs
    | _ => cases hm
  sound_of_unknown _ _ := trivial
  put_of_unknown m hm := by
    cases m with
    | other => rfl
    | _ => cases hm

theorem scan_object {b cs : List Char} (h : Object name Spells members cs) (hb : Blanks b)
    (rest : List Char) :
    StreamSettings.codec.scan (b ++ (cs ++ rest)) =
      if GivenOnce members then .ok (settings members, rest) else .error .mismatch := by
  rw [StreamSettings.codec, Field.scan_record answers h hb rest]
  exact if_congr (and_iff_left fun _ _ => trivial) rfl rfl

/-! Settings of different names do not get in each other's way. -/

theorem put_comm (h : m.name ≠ m'.name) (s : StreamSettings) :
    m.put (m'.put s) = m'.put (m.put s) := by
  cases m <;> cases m' <;> first | rfl | exact absurd rfl h

theorem settings_filter (members : List StreamMember) :
    settings (members.filter isKnown) = settings members := by
  rw [settings, settings, List.foldl_filter]
  congr 1
  funext s m
  cases m <;> rfl

theorem Agree.givenOnce_iff (h : Agree members members') :
    GivenOnce members ↔ GivenOnce members' :=
  (h.map name).nodup_iff

theorem Agree.settings_eq (h : Agree members members') (hgiven : GivenOnce members) :
    settings members = settings members' := by
  rw [← settings_filter members, ← settings_filter members']
  exact Field.foldl_put_of_perm put_comm h hgiven

end StreamMember

/-! ### Members of a session -/

namespace SessionMember

variable {members members' : List SessionMember} {m m' : SessionMember} {text text' : String}

theorem scan_scalar {α : Type} {codec : Codec α} {Spells : α → List Char → Prop}
    (h : codec.Reads Spells) (field : String) (get : SessionSettings → α)
    (set : α → SessionSettings → SessionSettings) {a : α} {b cs rest : List Char} (ha : Spells a cs)
    (hb : Blanks b) (hrest : Ends rest) :
    (Field.of field codec get set).scan (b ++ (cs ++ rest)) =
      if StreamMember.GivenOnce [] then .ok (set a, rest) else .error .mismatch := by
  rw [Field.scan_of h field get set ha hb hrest]
  exact (if_pos List.nodup_nil).symm

theorem answers : Field.Answers SessionSettings.fields name isKnown Spells
    (fun m => StreamMember.GivenOnce m.inner) put where
  scan_of_known m hm := by
    cases m with
    | bindAddress => exact ⟨_, rfl, fun _ _ _ => scan_scalar (Codec.reads_text _ _) _ _ _⟩
    | dataPort => exact ⟨_, rfl, fun _ _ _ => scan_scalar Codec.reads_word16 _ _ _⟩
    | controlPort => exact ⟨_, rfl, fun _ _ _ => scan_scalar Codec.reads_word16 _ _ _⟩
    | timingPort => exact ⟨_, rfl, fun _ _ _ => scan_scalar Codec.reads_word16 _ _ _⟩
    | controlPeer =>
        exact ⟨_, rfl, fun _ _ _ => scan_scalar
          ((Codec.reads_text _ _).optional (Codec.neverOpens_quoted (by decide))) _ _ _⟩
    | maxIdleBuffers => exact ⟨_, rfl, fun _ _ _ => scan_scalar Codec.reads_word64 _ _ _⟩
    | stream =>
        refine ⟨_, rfl, fun cs b rest hcs hb _ => ?_⟩
        rw [Field.of]
        dsimp only
        rw [StreamMember.scan_object hcs hb rest]
        exact apply_ite _ _ _ _
    | other => cases hm
  skipped_of_unknown m hm cs hcs := by
    cases m with
    | other => exact hcs
    | _ => cases hm
  sound_of_unknown m hm := by
    cases m with
    | other => exact List.nodup_nil
    | _ => cases hm
  put_of_unknown m hm := by
    cases m with
    | other => rfl
    | _ => cases hm

theorem scan_object {b cs : List Char} (h : Object name Spells members cs) (hb : Blanks b)
    (rest : List Char) :
    SessionSettings.codec.scan (b ++ (cs ++ rest)) =
      if GivenOnce members then .ok (settings members, rest) else .error .mismatch := by
  rw [SessionSettings.codec, Field.scan_record answers h hb rest]
  exact if_congr Iff.rfl rfl rfl

theorem Document.scan_eq (h : Document members text) :
    SessionSettings.scan text =
      if GivenOnce members then .ok (settings members) else .error .mismatch := by
  obtain ⟨hb, hb', hobject, htext⟩ := h
  rename_i b object b'
  have hend : Scan.skipBlanks b' = [] := by
    rw [← List.append_nil b', Scan.skipBlanks_append hb']
    rfl
  rw [SessionSettings.scan, htext, scan_object hobject hb b']
  split
  · dsimp only [bind, Except.bind]
    rw [hend]
    rfl
  · rfl

theorem Document.ofText_eq (h : Document members text) :
    SessionSettings.ofText text =
      if GivenOnce members then (settings members).checked
      else .error (.unreadable .mismatch) := by
  rw [SessionSettings.ofText, h.scan_eq]
  by_cases hgiven : GivenOnce members
  · rw [if_pos hgiven, if_pos hgiven]
    rfl
  · rw [if_neg hgiven, if_neg hgiven]

/-- No value hides that a name comes again: it is refused itself or read to its end. -/
theorem GivesTwice.unreadable {b object rest : List Char} (h : GivesTwice object) (hb : Blanks b) :
    ∃ fault, SessionSettings.ofText (String.ofList (b ++ (object ++ rest))) =
      .error (.unreadable fault) := by
  cases hscan : SessionSettings.codec.scan (b ++ (object ++ rest)) with
  | error fault =>
      refine ⟨fault, ?_⟩
      rw [SessionSettings.ofText, SessionSettings.scan, String.toList_ofList, hscan]
      rfl
  | ok r =>
      exfalso
      cases h with
      | here h =>
          obtain ⟨members, hobject, htwice⟩ := h
          exact htwice (Codec.once_of_record SessionSettings.exact_fields hobject hb hscan).1
      | inside hobject hvalue htwice =>
          obtain ⟨inner, hinner, htwice⟩ := htwice
          have hvalues := (Codec.once_of_record SessionSettings.exact_fields hobject hb hscan).2
          obtain ⟨b', rest', put, hb', -, hstream⟩ := hvalues _ hvalue _ rfl
          obtain ⟨p, hp, -⟩ := Scan.map_eq_ok_iff.mp hstream
          exact htwice (Codec.once_of_record StreamSettings.exact_fields hinner hb' hp).1

/-! ### Order and other members -/

theorem put_comm (h : m.name ≠ m'.name) (s : SessionSettings) :
    m.put (m'.put s) = m'.put (m.put s) := by
  cases m <;> cases m' <;> first | rfl | exact absurd rfl h

theorem settings_filter (members : List SessionMember) :
    settings (members.filter isKnown) = settings members := by
  rw [settings, settings, List.foldl_filter]
  congr 1
  funext s m
  cases m <;> rfl

/-- Only a member that is known has an object inside. -/
theorem givenOnce_filter (members : List SessionMember) :
    GivenOnce (members.filter isKnown) ↔ GivenOnce members := by
  have hinner : (∀ m ∈ members.filter isKnown, StreamMember.GivenOnce m.inner) ↔
      ∀ m ∈ members, StreamMember.GivenOnce m.inner := by
    refine ⟨fun h m hm => ?_, fun h m hm => h m (List.mem_filter.mp hm).1⟩
    cases hknown : m.isKnown with
    | true => exact h m (List.mem_filter.mpr ⟨hm, hknown⟩)
    | false => exact answers.sound_of_unknown m hknown
  rw [GivenOnce, GivenOnce, List.filter_filter, hinner]
  simp only [Bool.and_self]

theorem givenOnce_of_perm (h : members.Perm members') (hgiven : GivenOnce members) :
    GivenOnce members' :=
  ⟨((h.filter isKnown).map name).nodup_iff.mp hgiven.1, fun m hm => hgiven.2 m (h.mem_iff.mpr hm)⟩

namespace Alike

theorem name_eq (h : Alike m m') : m.name = m'.name := by
  cases h <;> rfl

theorem isKnown_eq (h : Alike m m') : m.isKnown = m'.isKnown := by
  cases h <;> rfl

theorem givenOnce_iff (h : Alike m m') :
    StreamMember.GivenOnce m.inner ↔ StreamMember.GivenOnce m'.inner := by
  cases h with
  | refl => rfl
  | stream h => exact h.givenOnce_iff

theorem put_eq (h : Alike m m') (hgiven : StreamMember.GivenOnce m.inner) : m.put = m'.put := by
  cases h with
  | refl => rfl
  | stream h => rw [put, put, h.settings_eq hgiven]

end Alike

theorem names_eq_of_alike (h : List.Forall₂ Alike members members') :
    (members.filter isKnown).map name = (members'.filter isKnown).map name := by
  induction h with
  | nil => rfl
  | cons hm _ ih =>
      rw [List.filter_cons, List.filter_cons, hm.isKnown_eq]
      split
      · rw [List.map_cons, List.map_cons, hm.name_eq, ih]
      · exact ih

theorem givenOnce_iff_of_alike (h : List.Forall₂ Alike members members') :
    GivenOnce members ↔ GivenOnce members' := by
  have hinner : (∀ m ∈ members, StreamMember.GivenOnce m.inner) ↔
      ∀ m ∈ members', StreamMember.GivenOnce m.inner := by
    induction h with
    | nil => rfl
    | cons hm _ ih => rw [List.forall_mem_cons, List.forall_mem_cons, hm.givenOnce_iff, ih]
  rw [GivenOnce, GivenOnce, names_eq_of_alike h, hinner]

theorem foldl_put_of_alike (h : List.Forall₂ Alike members members')
    (hgiven : ∀ m ∈ members, StreamMember.GivenOnce m.inner) (s : SessionSettings) :
    members.foldl (fun s m => m.put s) s = members'.foldl (fun s m => m.put s) s := by
  induction h generalizing s with
  | nil => rfl
  | cons hm _ ih =>
      obtain ⟨hinner, hgiven⟩ := List.forall_mem_cons.mp hgiven
      rw [List.foldl_cons, List.foldl_cons, hm.put_eq hinner, ih hgiven]

theorem Agree.givenOnce_iff (h : Agree members members') :
    GivenOnce members ↔ GivenOnce members' := by
  obtain ⟨order, hperm, halike⟩ := h
  calc GivenOnce members
      ↔ GivenOnce (members.filter isKnown) := (givenOnce_filter members).symm
    _ ↔ GivenOnce order := ⟨givenOnce_of_perm hperm, givenOnce_of_perm hperm.symm⟩
    _ ↔ GivenOnce (members'.filter isKnown) := givenOnce_iff_of_alike halike
    _ ↔ GivenOnce members' := givenOnce_filter members'

theorem Agree.settings_eq (h : Agree members members') (hgiven : GivenOnce members) :
    settings members = settings members' := by
  obtain ⟨order, hperm, halike⟩ := h
  have horder := givenOnce_of_perm hperm ((givenOnce_filter members).mpr hgiven)
  calc settings members
      = settings (members.filter isKnown) := (settings_filter members).symm
    _ = settings order := Field.foldl_put_of_perm put_comm hperm hgiven.1
    _ = settings (members'.filter isKnown) := foldl_put_of_alike halike horder.2 .default
    _ = settings members' := settings_filter members'

/-- What is printed is a document, with a member for each one that is written. -/
theorem document_print {pairs : List (String × Json)}
    (h : List.Forall₂ (fun m p => p.1 = name m ∧ Spells m p.2.chars) members pairs) :
    Document members (Json.object pairs).print := by
  refine .intro blanks_nil blanks_nil (object_chars h) ?_
  rw [Json.print, String.toList_ofList, List.append_nil, List.nil_append]

end SessionMember

end AudioIntake
