import Ipmb.Protocol.FrameReader

open ipmb.frame_reader

namespace ipmb.security

def IPMB_FRAME_FLAG_FRAGMENTED : UInt16 := 0x0001

/-- What a round of the loop adds to the score. -/
def add_risk (msg : ipmb_message_t) (score : UInt32) (i : Nat) : Except Fault UInt32 := do
  let f ← frame_at msg i
  let score := if f.ttl = 0 then score + 4 else score
  let score := if f.priority > 100 then score + 6 else score
  let score := if f.frame_flags &&& IPMB_FRAME_FLAG_FRAGMENTED ≠ 0 then score + 3 else score
  pure (if f.payload_len > 4096 then score + 2 else score)

def ipmb_security_risk_score (msg : ipmb_message_t) : Except Fault UInt32 :=
  (List.range msg.frame_count.toNat).foldlM (add_risk msg) 0

end ipmb.security
