import AudioIntake.Proofs.Wire.Header
import AudioIntake.Wire.Rerequest

/-!
# Rerequests on the wire

A rerequest is read from what stands at the three places of its numbers, and those are the places at
which it is written.
-/

namespace AudioIntake

namespace Rerequest

variable {bs : Octets} {r : Rerequest} {stamp : UInt16}

theorem decode_of_carries (hcode : bs.payloadCode? = some PayloadType.retransmitRequest.code)
    (hstamp : bs.Carries 2 2 stamp.toNat) (hfirst : bs.Carries 4 2 r.first.val)
    (hcount : bs.Carries 6 2 r.count.toNat) : decode bs = .ok (stamp, r) := by
  have hlength := hcount.inside
  have hmod := (Octets.payloadCode?_eq_some_iff (by omega)).mp hcode
  rw [decode, dif_neg (by omega)]
  dsimp only
  rw [if_neg (not_not.mpr hmod), (Octets.uint16_eq_iff _ _).mpr hstamp,
    (SeqNo.field_eq_iff _ _).mpr hfirst, (Octets.uint16_eq_iff _ _).mpr hcount]

/-! ### Where the numbers are written -/

variable (r stamp)

theorem payloadCode?_encode :
    (r.encode stamp).payloadCode? = some PayloadType.retransmitRequest.code := rfl

theorem carries_stamp_encode : (r.encode stamp).Carries 2 2 stamp.toNat := by
  have hbs : r.encode stamp = [0x80, 0x80 + PayloadType.retransmitRequest.code] ++
      Octets.ofValue 2 stamp.toNat ++ (r.first.octets ++ Octets.ofValue 2 r.count.toNat) := by
    simp [encode]
  exact Octets.carries_of_eq hbs rfl stamp.toNat_lt

theorem carries_first_encode : (r.encode stamp).Carries 4 2 r.first.val :=
  Octets.carries_of_eq rfl (by simp) r.first.val_lt

theorem carries_count_encode : (r.encode stamp).Carries 6 2 r.count.toNat :=
  Octets.carries_of_eq (List.append_nil _).symm (by simp) r.count.toNat_lt

theorem decode_encode : decode (r.encode stamp) = .ok (stamp, r) :=
  decode_of_carries (r.payloadCode?_encode stamp) (r.carries_stamp_encode stamp)
    (r.carries_first_encode stamp) (r.carries_count_encode stamp)

end Rerequest

end AudioIntake
