import NgxRtmp.HlsAnnexB

namespace NgxRtmp.HlsVideo

open List hiding after next
open Octets Segments

-- What a message has to become. A unit of no bytes has no type and is no unit.
def nalType (unit : List UInt8) : Option Nat := unit.head?.map fun first => first.toNat % 32

def Carries (codec : Codec) (units : List (List UInt8)) (link : List (List UInt8)) : Prop :=
  (∀ unit ∈ units, unit.length < 256^codec.avcNalBytes) ∧
    ∃ fmt cts, cts.length = 3 ∧ link.flatten = [fmt] ++ ([1] ++ (cts ++ prefixed codec.avcNalBytes units))

theorem convertMessage_written (written : convertMessage update codec ctx h link = .write frame packets cc log)
    (message : link.flatten = [fmt] ++ ([1] ++ (cts ++ rest))) (three : cts.length = 3) :
    ∃ c after, c.rest = rest ∧ Settled c ∧ convert codec link.flatten.length ⟨c,⟨[],[]⟩,false,false⟩ = .goOn after ∧
      frame = videoFrame h fmt (natural cts) after.out.bytes ∧ packets = (Mpegts.writeFrame frame ctx.videoCc).1 ∧
      log = after.out.log := by
  unfold convertMessage at written
  split at written
  · cases written
  rename_i fmt' c1 copied1
  obtain ⟨rfl,rest1,settled1⟩ := copy_front (inside_start _) copied1 (rest_start.trans message) rfl
  split at written
  · cases written
  rename_i htype c2 copied2
  obtain ⟨rfl,rest2,settled2⟩ := copy_front settled1.inside copied2 rest1 rfl
  rw [if_neg (by simp)] at written
  split at written
  · cases written
  rename_i cts' c3 copied3
  obtain ⟨rfl,rest3,settled3⟩ := copy_front settled2.inside copied3 rest2 three
  split at written
  · cases written
  rename_i after turned
  unfold writeVideo at written
  split at written
  · cases written
    exact ⟨c3,after,rest3,settled3,turned,rfl,rfl,rfl⟩
  · cases written

theorem hlsVideo_written (written : hlsVideo update s h link = .write frame packets cc log) :
    ∃ ctx codec, s.codec = some codec ∧ convertMessage update codec ctx h link = .write frame packets cc log := by
  unfold hlsVideo at written
  split at written
  · rename_i ctx codec _ _ here
    split at written
    · cases written
    · split at written
      · cases written
      · exact ⟨ctx,codec,here,written⟩
  · cases written

-- A message with units of types 9, 6, 5, 1 and 5 over three buffers.
def sampleConfig : Config := ⟨[0x17,0,0,0,0,1,0x64,0,0x1f],0xfd,0xe1,[[0x67,1,2]],[[0x68,3]],[]⟩
def sampleCodec : Codec := ⟨7,[sampleConfig.bytes.take 7,[],sampleConfig.bytes.drop 7],2,none⟩
def sampleSession : Session := ⟨some true,some ⟨true,[],0⟩,some sampleCodec⟩
end NgxRtmp.HlsVideo
