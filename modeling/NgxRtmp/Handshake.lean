import NgxRtmp.ChunkWriter
import NgxRtmp.Lib.Splice

namespace NgxRtmp.Handshake
open Octets ChunkWriter Splice List

def keylen : Nat := 32
def bufsize : Nat := 1537

-- A keyed function with digests of 32 bytes, in the place of HMAC-SHA256.
structure Hmac where
  digest : List UInt8 → List UInt8 → List UInt8
  length : ∀ key text, (digest key text).length = keylen

def text (string : String) : List UInt8 := string.toList.map fun c => UInt8.ofNat c.toNat

def keyTail : List UInt8 :=
  [0xF0,0xEE,0xC2,0x4A,0x80,0x68,0xBE,0xE8,0x2E,0x00,0xD0,0xD1,
   0x02,0x9E,0x7E,0x57,0x6E,0xEC,0x5D,0x2D,0x29,0x80,0x6F,0xAB,
   0x93,0xB8,0xE6,0x36,0xCF,0xEB,0x31,0xAE]

def serverKey : List UInt8 := text "Genuine Adobe Flash Media Server 001" ++ keyTail
def clientKey : List UInt8 := text "Genuine Adobe Flash Player 001" ++ keyTail

inductive Role where
  | server
  | client
  deriving DecidableEq, Repr

def Role.peer : Role → Role
  | .server => .client
  | .client => .server

def Role.version : Role → List UInt8
  | .server => [0x0D,0x0E,0x0A,0x0D]
  | .client => [0x0C,0x00,0x0D,0x0E]

def Role.fullKey : Role → List UInt8
  | .server => serverKey
  | .client => clientKey

def Role.partialKey : Role → List UInt8
  | .server => serverKey.take 36
  | .client => clientKey.take 30

def part (b : Buf) (first last : Nat) : List UInt8 := (b.mem.take last).drop first

def makeDigest (hmac : Hmac) (key : List UInt8) (src : Buf) (skip : Option Nat) : List UInt8 :=
  match skip with
  | none => hmac.digest key (part src src.pos src.last)
  | some skip =>
    if src.pos ≤ skip ∧ skip ≤ src.last then
      hmac.digest key (part src src.pos skip ++ part src (skip+keylen) src.last)
    else hmac.digest key (part src src.pos src.last)

def sumBytes (b : Buf) (base : Nat) : Nat := ((part b (b.pos+base) (b.pos+base+4)).map UInt8.toNat).sum

def digestPosition (b : Buf) (base : Nat) : Nat := sumBytes b base % 728+base+4

def findDigest (hmac : Hmac) (b : Buf) (key : List UInt8) (base : Nat) : Option Nat :=
  let offs := digestPosition b base
  let p := b.pos+offs
  if makeDigest hmac key b (some p) = part b p (p+keylen) then some offs else none

def writeDigest (hmac : Hmac) (b : Buf) (key : List UInt8) (base : Nat) : Buf :=
  let offs := sumBytes b (base+8) % 728+base+12
  let p := b.pos+offs
  b.write p (makeDigest hmac key b (some p))

def fillRandomBuffer (random : Nat → UInt8) (b : Buf) : Buf :=
  b.append ((List.range (b.size-b.last)).map random)

-- The handshake's part of ngx_rtmp_session_t. `hsOld` is set when the peer's
-- challenge has no digest.
structure Session where
  epoch : UInt32
  peerEpoch : UInt32
  hsBuf : Buf
  hsOld : Bool
  hsDigest : Option (List UInt8)
  deriving DecidableEq, Repr

-- The protocol version, the epoch turned around (ngx_rtmp_rcpymem), and the software version.
def startChallenge (epoch : UInt32) (version : List UInt8) (b : Buf) : Buf :=
  let b := {b with pos:=0,last:=0}
  let b := b.append [3]
  let b := b.append [octet epoch 3,octet epoch 2,octet epoch 1,octet epoch 0]
  b.append version

def createChallenge (hmac : Hmac) (random : Nat → UInt8) (version key : List UInt8) (s : Session) : Session :=
  let b := fillRandomBuffer random (startChallenge s.epoch version s.hsBuf)
  let b := writeDigest hmac {b with pos:=b.pos+1} key 0
  {s with hsBuf:={b with pos:=b.pos-1}}

-- ngx_rtmp_handshake_parse_challenge, `none` for NGX_ERROR.
def parseChallenge (hmac : Hmac) (peerKey key : List UInt8) (s : Session) : Option Session :=
  let b := s.hsBuf
  if b.mem[b.pos]? ≠ some 3 then none
  else
    let b := {b with pos:=b.pos+1}
    let s := {s with hsBuf:=b,peerEpoch:=UInt32.ofNat (natural (part b b.pos (b.pos+4)))}
    if part b (b.pos+4) (b.pos+8) = [0,0,0,0] then some {s with hsOld:=true}
    else
      match (findDigest hmac b peerKey 772).orElse fun _ => findDigest hmac b peerKey 8 with
      | none => some {s with hsOld:=true}
      | some offs =>
        let b := {b with pos:=b.pos+offs,last:=b.pos+offs+keylen}
        some {s with hsBuf:=b,hsDigest:=some (makeDigest hmac key b none)}

def createResponse (hmac : Hmac) (random : Nat → UInt8) (s : Session) : Session :=
  let b := fillRandomBuffer random {s.hsBuf with pos:=1,last:=1}
  match s.hsDigest with
  | none => {s with hsBuf:=b}
  | some key =>
    let p := b.last-keylen
    {s with hsBuf:=b.write p (makeDigest hmac key b (some p))}

def Whole (b : Buf) : Prop := b.size = bufsize ∧ b.mem.length = bufsize

theorem write_eq {b : Buf} : (b.write place bytes).mem = splice b.mem place bytes := rfl

theorem makeDigest_length (hmac : Hmac) (key : List UInt8) (src : Buf) (skip : Option Nat) :
    (makeDigest hmac key src skip).length = keylen := by
  unfold makeDigest
  split
  · exact hmac.length _ _
  · split <;> exact hmac.length _ _

theorem digestPosition_bound (b : Buf) (base : Nat) (known : base ≤ 772) : digestPosition b base+keylen ≤ 1536 := by
  have small : sumBytes b base % 728 < 728 := Nat.mod_lt _ (by decide)
  unfold digestPosition keylen
  omega

theorem writeDigest_eq :
    writeDigest hmac b key 0 = b.write (b.pos+digestPosition b 8) (makeDigest hmac key b (some (b.pos+digestPosition b 8))) := rfl

section Hole

variable {b : Buf} {place : Nat} {digest : List UInt8}

theorem part_before (inside : place ≤ b.mem.length) (before : last ≤ place) : part (b.write place digest) first last = part b first last := by
  unfold part
  rw [write_eq,take_splice inside before]

theorem part_behind (inside : place ≤ b.mem.length) (width : digest.length = keylen) :
    part (b.write place digest) (place+keylen) last = part b (place+keylen) last := by
  have behind : (splice b.mem place digest).drop (place+keylen) = b.mem.drop (place+keylen) := by
    rw [← width]
    exact drop_end inside
  unfold part
  rw [write_eq,drop_take,drop_take,behind]

theorem part_written (inside : place ≤ b.mem.length) (width : digest.length = keylen) :
    part (b.write place digest) place (place+keylen) = digest := by
  have upTo : (splice b.mem place digest).take (place+keylen) = b.mem.take place ++ digest := by
    rw [← width]
    exact take_end inside
  unfold part
  rw [write_eq,upTo]
  apply drop_left'
  rw [length_take]
  omega

-- The digest is taken around a hole, so filling the hole leaves it.
theorem makeDigest_hole (inside : place ≤ b.mem.length) (width : digest.length = keylen)
    (behind : b.pos ≤ place) (before : place ≤ b.last) :
    makeDigest hmac key (b.write place digest) (some place) = makeDigest hmac key b (some place) := by
  unfold makeDigest
  change (if b.pos ≤ place ∧ place ≤ b.last then _ else _) = _
  simp only [if_pos (And.intro behind before)]
  change hmac.digest key (part (b.write place digest) b.pos place ++ part (b.write place digest) (place+keylen) b.last) = _
  rw [part_before inside le_rfl,part_behind inside width]

end Hole

theorem findDigest_written (hmac : Hmac) (key : List UInt8) (room : b.pos+1536 ≤ b.mem.length)
    (full : b.last = b.mem.length) : findDigest hmac (writeDigest hmac b key 0) key 8 = some (digestPosition b 8) := by
  have bound := digestPosition_bound b 8 (by decide)
  have front : 12 ≤ digestPosition b 8 := by
    unfold digestPosition
    omega
  have inside : b.pos+digestPosition b 8 ≤ b.mem.length := by omega
  have width := makeDigest_length hmac key b (some (b.pos+digestPosition b 8))
  have same : digestPosition (writeDigest hmac b key 0) 8 = digestPosition b 8 := by
    unfold digestPosition sumBytes
    rw [writeDigest_eq]
    change ((part (b.write _ _) (b.pos+8) (b.pos+8+4)).map UInt8.toNat).sum % 728+8+4 = _
    rw [part_before inside (by omega)]
  unfold findDigest
  simp only [same]
  rw [writeDigest_eq]
  change (if makeDigest hmac key (b.write _ _) (some (b.pos+digestPosition b 8)) =
    part (b.write _ _) (b.pos+digestPosition b 8) (b.pos+digestPosition b 8+keylen) then _ else _) = _
  rw [makeDigest_hole inside width (Nat.le_add_right ..) (by omega),part_written inside width,if_pos rfl]

structure Written (b : Buf) (bytes : List UInt8) : Prop where
  whole : Whole b
  last : b.last = bytes.length
  front : b.mem.take b.last = bytes

theorem append_written (written : Written b bytes) (room : bytes.length+more.length ≤ bufsize) : Written (b.append more) (bytes ++ more) := by
  obtain ⟨⟨size,length⟩,last,front⟩ := written
  have fits : b.last+more.length ≤ b.mem.length := by omega
  refine ⟨⟨size,(splice_length fits).trans length⟩,?_,?_⟩
  · change b.last+more.length = _
    rw [last,length_append]
  · change (splice b.mem b.last more).take (b.last+more.length) = _
    rw [take_end (by omega),front]

def challengeStart (epoch : UInt32) (version : List UInt8) : List UInt8 :=
  [3] ++ [octet epoch 3,octet epoch 2,octet epoch 1,octet epoch 0] ++ version

theorem fill_written (written : Written b bytes) (room : bytes.length ≤ bufsize) :
    ∃ more, Written (fillRandomBuffer random b) (bytes ++ more) ∧ (bytes ++ more).length = bufsize := by
  have size : b.size-b.last = bufsize-bytes.length := by rw [written.whole.1,written.last]
  have length : ((List.range (b.size-b.last)).map random).length = bufsize-bytes.length := by
    rw [length_map,length_range,size]
  refine ⟨_,append_written written ?_,?_⟩
  · omega
  · rw [length_append,length]
    omega

-- A challenge before its digest is written: full, with its first nine bytes in place.
structure Drafted (epoch : UInt32) (version : List UInt8) (b : Buf) : Prop where
  whole : Whole b
  pos : b.pos = 1
  last : b.last = bufsize
  front : b.mem.take 9 = challengeStart epoch version

theorem startChallenge_written (epoch : UInt32) (whole : Whole b) (width : version.length = 4) :
    Written (startChallenge epoch version b) (challengeStart epoch version) := by
  have empty : Written {b with pos:=0,last:=0} [] := ⟨whole,rfl,rfl⟩
  apply append_written
  · apply append_written
    · exact append_written empty (by decide)
    · change 1+4 ≤ 1537
      decide
  · change 5+version.length ≤ 1537
    omega

theorem createChallenge_drafted (hmac : Hmac) (random : Nat → UInt8) (key : List UInt8) (s : Session) (whole : Whole s.hsBuf)
    (width : version.length = 4) : ∃ draft, Drafted s.epoch version draft ∧
      createChallenge hmac random version key s = {s with hsBuf:={writeDigest hmac draft key 0 with pos:=0}} := by
  have length : (challengeStart s.epoch version).length = 9 := by simp [challengeStart,width]
  have nine := startChallenge_written s.epoch whole width
  obtain ⟨more,filled,full⟩ := fill_written nine (by rw [length]; decide)
  refine ⟨{fillRandomBuffer random (startChallenge s.epoch version s.hsBuf) with pos:=1},
    ⟨filled.whole,rfl,filled.last.trans full,?_⟩,rfl⟩
  have front := congrArg (List.take 9) filled.front
  rw [filled.last,full,take_take,take_append_of_le_length (le_of_eq length.symm)] at front
  exact front.trans (take_of_length_le (le_of_eq length))

-- It begins with 3, has a version, and the second place holds its digest.
theorem parseChallenge_digest (first : s.hsBuf.mem[s.hsBuf.pos]? = some 3)
    (version : part s.hsBuf (s.hsBuf.pos+5) (s.hsBuf.pos+9) ≠ [0,0,0,0])
    (found : findDigest hmac {s.hsBuf with pos:=s.hsBuf.pos+1} peerKey 8 = some offs) :
    ∃ after, parseChallenge hmac peerKey key s = some after ∧ after.hsOld = s.hsOld ∧ after.hsDigest.isSome = true := by
  unfold parseChallenge
  rw [if_neg (not_not_intro first)]
  change ∃ after, (if part s.hsBuf (s.hsBuf.pos+5) (s.hsBuf.pos+9) = [0,0,0,0] then _ else _) = some after ∧ _
  rw [if_neg version]
  simp only [found]
  cases findDigest hmac {s.hsBuf with pos:=s.hsBuf.pos+1} peerKey 772 with
  | none => exact ⟨_,rfl,rfl,rfl⟩
  | some other => exact ⟨_,rfl,rfl,rfl⟩

theorem drafted_found (draft : Drafted epoch version b)
    (nonzero : version ≠ [0,0,0,0]) (same : s.hsBuf = {writeDigest hmac b peerKey 0 with pos:=0}) :
    ∃ after, parseChallenge hmac peerKey key s = some after ∧ after.hsOld = s.hsOld ∧ after.hsDigest.isSome = true := by
  obtain ⟨⟨_,length⟩,pos,last,front⟩ := draft
  have room : b.pos+1536 ≤ b.mem.length := by rw [pos,length]; decide
  have found := findDigest_written hmac peerKey room (last.trans length.symm)
  have behind : 9 ≤ b.pos+digestPosition b 8 := by
    unfold digestPosition
    omega
  have bound := digestPosition_bound b 8 (by decide)
  have kept : (writeDigest hmac b peerKey 0).mem.take 9 = challengeStart epoch version := by
    rw [writeDigest_eq,write_eq,take_splice (by omega) behind,front]
  have again : ({s.hsBuf with pos:=s.hsBuf.pos+1} : Buf) = writeDigest hmac b peerKey 0 := by
    rw [same,writeDigest_eq]
    change ({b.write _ _ with pos:=1} : Buf) = b.write _ _
    rw [← pos]
    rfl
  rw [← again] at found
  refine parseChallenge_digest ?_ ?_ found
  · have first := congrArg (·[0]?) kept
    rw [same]
    simpa [challengeStart] using first
  · rw [same]
    change ((writeDigest hmac b peerKey 0).mem.take 9).drop 5 ≠ _
    rw [kept]
    exact nonzero

abbrev Memory := {bytes : List UInt8 // bytes.length = bufsize}

def Session.holding (s : Session) (memory : Memory) (pos last : Nat) : Session := {s with hsBuf:=⟨memory.1,pos,last,bufsize⟩}

def Session.heard (s : Session) (challenge : List UInt8) : Session :=
  {s with hsBuf:=⟨challenge,0,bufsize,bufsize⟩,hsOld:=false,hsDigest:=none}

theorem drafted_contents (draft : Drafted epoch version b) :
    (writeDigest hmac b key 0).mem.length = bufsize ∧
      ({writeDigest hmac b key 0 with pos:=0} : Buf).contents = (writeDigest hmac b key 0).mem := by
  have bound := digestPosition_bound b 8 (by decide)
  have width := makeDigest_length hmac key b (some (b.pos+digestPosition b 8))
  have length : (writeDigest hmac b key 0).mem.length = bufsize := by
    rw [writeDigest_eq,write_eq,splice_length]
    · exact draft.whole.2
    · rw [width,draft.pos,draft.whole.2]
      change 1+digestPosition b 8+keylen ≤ 1537
      omega
  refine ⟨length,take_of_length_le ?_⟩
  exact le_of_eq (length.trans draft.last.symm)

theorem challenge_agreement (hmac : Hmac) :
    (∀ (role : Role) (random : Nat → UInt8) (s peer : Session) (memory : Memory) (pos last : Nat),
      let challenge := (createChallenge hmac random role.version role.partialKey (s.holding memory pos last)).hsBuf.contents
      challenge.length = bufsize ∧
      ∃ after, parseChallenge hmac role.partialKey role.peer.fullKey (peer.heard challenge) = some after ∧
        after.hsOld = false ∧ after.hsDigest.isSome = true) ∧
    ∀ (challenge : Buf), ∀ base ∈ [772,8], digestPosition challenge base+keylen ≤ 1536 := by
  refine ⟨?_,?_⟩
  · intro role random s peer memory pos last challenge
    have width : role.version.length = 4 := by cases role <;> rfl
    have nonzero : role.version ≠ [0,0,0,0] := by cases role <;> decide
    obtain ⟨draft,drafted,sent⟩ := createChallenge_drafted hmac random role.partialKey (s.holding memory pos last) ⟨rfl,memory.2⟩ width
    obtain ⟨length,contents⟩ := drafted_contents drafted
    have read : challenge = (writeDigest hmac draft role.partialKey 0).mem := by
      change Buf.contents _ = _
      rw [sent,contents]
    refine ⟨read ▸ length,drafted_found drafted nonzero ?_⟩
    rw [read]
    change (⟨_,0,bufsize,bufsize⟩ : Buf) = ⟨_,0,draft.last,draft.size⟩
    rw [drafted.last,drafted.whole.1]
  · intro challenge base known
    apply digestPosition_bound
    rcases mem_cons.mp known with rfl | known
    · exact le_rfl
    · rw [mem_singleton.mp known]
      decide

end NgxRtmp.Handshake
