import AudioIntake.Proofs.Address.Endpoint
import AudioIntake.Proofs.Settings.Documents

/-!
# Settings written and read back

The text of a session's settings is a document that gives all of them, so it is read as the same
settings, and these are used or refused as their own check says.
-/

namespace AudioIntake

open Grammar

namespace StreamMember

def all (s : StreamSettings) : List StreamMember :=
  [.tickIntervalMs s.tickIntervalMs, .rerequestTicks s.rerequestTicks, .giveUpTick s.giveUpTick,
    .maxLead s.maxLead, .queueCapacity s.queueCapacity,
    .rerequestQueueCapacity s.rerequestQueueCapacity]

theorem givenOnce_all (s : StreamSettings) : GivenOnce (all s) := by
  change ["tick_interval_ms", "rerequest_ticks", "give_up_tick", "max_lead", "queue_capacity",
    "rerequest_queue_capacity"].Nodup
  decide

theorem settings_all (s : StreamSettings) : settings (all s) = s := by
  simp only [settings, all, List.foldl_cons, List.foldl_nil, put]

theorem object_toValue (s : StreamSettings) : Object name Spells (all s) s.toValue.chars := by
  have hticks : Listed (Decimal fun w : UInt32 => w.toNat) s.rerequestTicks
      (Json.array (s.rerequestTicks.map Codec.word32.toValue)).chars :=
    listed_chars fun tick _ => Numeral.chars_ofInt tick.toNat
  exact object_chars
    (.cons ⟨rfl, Numeral.chars_ofInt _⟩ <| .cons ⟨rfl, hticks⟩ <|
      .cons ⟨rfl, Numeral.chars_ofInt _⟩ <| .cons ⟨rfl, Numeral.chars_ofInt _⟩ <|
      .cons ⟨rfl, Numeral.chars_ofInt _⟩ <| .cons ⟨rfl, Numeral.chars_ofInt _⟩ .nil)

end StreamMember

namespace SessionMember

def all (s : SessionSettings) : List SessionMember :=
  [.bindAddress s.bindAddress, .dataPort s.dataPort, .controlPort s.controlPort,
    .timingPort s.timingPort, .controlPeer s.controlPeer, .maxIdleBuffers s.maxIdleBuffers,
    .stream (StreamMember.all s.stream)]

theorem givenOnce_all (s : SessionSettings) : GivenOnce (all s) := by
  refine ⟨?_, ?_⟩
  · change ["bind_addr", "data_port", "control_port", "timing_port", "control_peer",
      "arena_max_pooled", "sequencer"].Nodup
    decide
  · have hnone : StreamMember.GivenOnce [] := List.nodup_nil
    simp [all, inner, hnone, StreamMember.givenOnce_all]

theorem settings_all (s : SessionSettings) : settings (all s) = s := by
  simp only [settings, all, List.foldl_cons, List.foldl_nil, put, StreamMember.settings_all]

theorem quoted_chars {α : Type} {read : String → Option α} {a : α} {text : String}
    (h : read text = some a) : Quoted read a (Json.string text).chars := by
  rw [Json.chars]
  exact .intro h (Json.literal_escaped text.toList)

theorem document_text (s : SessionSettings) : Document (all s) s.text := by
  have hpeer : Nullable (Quoted Endpoint.ofText?) s.controlPeer
      ((Codec.text Endpoint.ofText? Endpoint.text).optional.toValue s.controlPeer).chars := by
    cases s.controlPeer with
    | none => exact .null
    | some peer => exact .value (quoted_chars peer.ofText?_text)
  exact document_print
    (.cons ⟨rfl, quoted_chars s.bindAddress.ofText?_text⟩ <| .cons ⟨rfl, Numeral.chars_ofInt _⟩ <|
      .cons ⟨rfl, Numeral.chars_ofInt _⟩ <| .cons ⟨rfl, Numeral.chars_ofInt _⟩ <|
      .cons ⟨rfl, hpeer⟩ <| .cons ⟨rfl, Numeral.chars_ofInt _⟩ <|
      .cons ⟨rfl, StreamMember.object_toValue s.stream⟩ .nil)

end SessionMember

namespace SessionSettings

/-- Whatever the settings are, their text is read back as the same ones if they pass their check, and
is refused for the very setting that the check finds fault with if they do not. -/
theorem ofText_text (s : SessionSettings) :
    ofText s.text =
      match s.check with
      | .ok () => .ok s
      | .error setting => .error (.invalid setting) := by
  have hread := (SessionMember.document_text s).ofText_eq
  rw [if_pos (SessionMember.givenOnce_all s), SessionMember.settings_all, checked] at hread
  rw [hread]
  cases s.check <;> rfl

end SessionSettings

end AudioIntake
