import NgxRtmp.Lib.Octets
import NgxRtmp.Lib.Segments
import NgxRtmp.Mpegts

namespace NgxRtmp.HlsVideo

open Octets Segments

inductive Report where
  | failedToRead (n : Nat)
  | headerNalSize
  | headerNal
  | audNal
  | spsPpsNals
  | annexBCode
  | nal
  deriving DecidableEq

def Report.full : Report → Bool
  | .headerNalSize | .headerNal | .audNal | .annexBCode | .nal => true
  | .failedToRead _ | .spsPpsNals => false

-- The `while` that ends ngx_rtmp_hls_copy: past every buffer that has been read up.
def settle : List (List UInt8) → Nat → Cursor UInt8
  | [],_ => ⟨[],0⟩
  | buf::next,offset => if offset = buf.length then settle next 0 else ⟨buf::next,offset⟩

def copyLoop : List (List UInt8) → Nat → Nat → Except (List Report) (List UInt8 × Cursor UInt8)
  | [],_,n => .error [.failedToRead n]
  | buf::next,offset,n =>
    if n ≤ buf.length-offset then .ok ((buf.drop offset).take n,settle (buf::next) (offset+n))
    else
      match copyLoop next 0 (n-(buf.length-offset)) with
      | .error log => .error log
      | .ok (read,cursor) => .ok (buf.drop offset ++ read,cursor)

-- ngx_rtmp_hls_copy; a chain at its end is refused without a report.
def copy (n : Nat) (c : Cursor UInt8) : Except (List Report) (List UInt8 × Cursor UInt8) :=
  if c.link = [] then .error [] else copyLoop c.link c.offset n

-- The buffer of the conversion from pos to last, and what was logged.
structure Out where
  bytes : List UInt8
  log : List Report

def bufsize : Nat := 1024*1024

def aud : List UInt8 := [0x09,0xf0]

def appendAud (out : Out) : Bool × Out :=
  if out.bytes.length+6 > bufsize then (false,out) else (true,{out with bytes:=out.bytes ++ [0,0,0,1] ++ aud})

-- The inner loop of ngx_rtmp_hls_append_sps_pps; what was written before a failure stays.
def appendNals : Nat → Cursor UInt8 → Out → Option (Cursor UInt8) × Out
  | 0,c,out => (some c,out)
  | nnals+1,c,out =>
    match copy 2 c with
    | .error log => (none,{out with log:=out.log ++ log})
    | .ok (rlen,c) =>
      let len := natural rlen
      if bufsize-out.bytes.length < 4 then (none,{out with log:=out.log ++ [.headerNalSize]})
      else
        let out := {out with bytes:=out.bytes ++ [0,0,0,1]}
        if bufsize-out.bytes.length < len then (none,{out with log:=out.log ++ [.headerNal]})
        else
          match copy len c with
          | .error log => (none,{out with log:=out.log ++ log})
          | .ok (nal,c) => appendNals nnals c {out with bytes:=out.bytes ++ nal}

-- Sequence parameter sets with five bits of the count, picture parameter sets with an int8_t.
def appendCounted (mask : Nat) (c : Cursor UInt8) (out : Out) : Option (Cursor UInt8) × Out :=
  match copy 1 c with
  | .error log => (none,{out with log:=out.log ++ log})
  | .ok (nnals,c) => appendNals (natural nnals &&& mask) c out

def appendSpsPps (avcHeader : List (List UInt8)) (out : Out) : Bool × Out :=
  if avcHeader = [] then (false,out)
  else
    match copy 10 ⟨avcHeader,0⟩ with
    | .error log => (false,{out with log:=out.log ++ log})
    | .ok (_,c) =>
      match appendCounted 0x1f c out with
      | (none,out) => (false,out)
      | (some c,out) =>
        match appendCounted 0xff c out with
        | (none,out) => (false,out)
        | (some _,out) => (true,out)

structure Codec where
  videoCodecId : Nat
  avcHeader : List (List UInt8)
  avcNalBytes : Nat
  aacHeader : Option (List (List UInt8))

structure Conversion where
  cursor : Cursor UInt8
  out : Out
  audSent : Bool
  spsPpsSent : Bool

inductive Code where
  | ok
  | error
  | endless
  deriving DecidableEq

inductive Turn where
  | goOn (st : Conversion)
  | leave (code : Code) (log : List Report)

def delimit (nalType : Nat) (st : Conversion) : Conversion :=
  if st.audSent then st
  else if nalType = 1 ∨ nalType = 5 ∨ nalType = 6 then
    match appendAud st.out with
    | (true,out) => {st with out:=out,audSent:=true}
    | (false,out) => {st with out:={out with log:=out.log ++ [.audNal]},audSent:=true}
  else st

def parametrise (avcHeader : List (List UInt8)) (nalType : Nat) (st : Conversion) : Conversion :=
  if nalType = 1 then {st with spsPpsSent:=false}
  else if nalType = 5 then
    if st.spsPpsSent then st
    else
      match appendSpsPps avcHeader st.out with
      | (true,out) => {st with out:=out,spsPpsSent:=true}
      | (false,out) => {st with out:={out with log:=out.log ++ [.spsPpsNals]},spsPpsSent:=true}
  else st

def appendUnit (srcNalType : UInt8) (len : Nat) (cursor : Cursor UInt8) (st : Conversion) : Turn :=
  if bufsize-st.out.bytes.length < 5 then .leave .ok (st.out.log ++ [.annexBCode])
  else
    let bytes := st.out.bytes ++ (if st.out.bytes = [] then [0,0,0,1] else [0,0,1]) ++ [srcNalType]
    if bufsize-bytes.length < len then .leave .ok (st.out.log ++ [.nal])
    else
      match copy (len-1) cursor with
      | .error log => .leave .error (st.out.log ++ log)
      | .ok (body,cursor) => .goOn {st with cursor:=cursor,out:={st.out with bytes:=bytes ++ body}}

def convertNal (codec : Codec) (st : Conversion) : Turn :=
  match copy codec.avcNalBytes st.cursor with
  | .error log => .leave .ok (st.out.log ++ log)
  | .ok (rlen,cursor) =>
    let len := natural rlen
    if len = 0 then .goOn {st with cursor:=cursor}
    else
      match copy 1 cursor with
      | .error log => .leave .ok (st.out.log ++ log)
      | .ok (first,cursor) =>
        let srcNalType := first.headD 0
        let nalType := srcNalType.toNat &&& 0x1f
        if nalType ≥ 7 ∧ nalType ≤ 9 then
          match copy (len-1) cursor with
          | .error log => .leave .error (st.out.log ++ log)
          | .ok (_,cursor) => .goOn {st with cursor:=cursor}
        else
          appendUnit srcNalType len cursor (parametrise codec.avcHeader nalType (delimit nalType st))

-- `while (in)`. A round takes at least a byte unless the lengths have no bytes.
def convert (codec : Codec) : Nat → Conversion → Turn
  | fuel,st =>
    if st.cursor.link = [] then .goOn st
    else
      match fuel with
      | 0 => .leave .endless st.out.log
      | fuel+1 =>
        match convertNal codec st with
        | .goOn st => convert codec fuel st
        | .leave code log => .leave code log

structure Ctx where
  opened : Bool
  aframe : List UInt8
  videoCc : UInt64

structure Session where
  hls : Option Bool
  ctx : Option Ctx
  codec : Option Codec

structure Header where
  mlen : Nat
  timestamp : UInt32

-- It leaves without a frame or writes one, with its packets and the counter after them.
inductive Outcome where
  | leave (code : Code) (log : List Report)
  | write (frame : Mpegts.Frame) (packets : List (List UInt8)) (videoCc : UInt64) (log : List Report)
  deriving DecidableEq

-- The frame of a message and whether it may start a fragment.
def videoFrame (h : Header) (fmt : UInt8) (cts : Nat) (data : List UInt8) : Mpegts.Frame :=
  {dts:=UInt64.ofNat (h.timestamp.toNat*90)
   pts:=UInt64.ofNat (h.timestamp.toNat*90)+UInt64.ofNat (cts*90)
   pid:=0x100
   sid:=0xe0
   key:=(fmt.toNat &&& 0xf0) >>> 4 == 1
   data:=data}

def boundary (codec : Codec) (ctx : Ctx) (frame : Mpegts.Frame) : Bool :=
  frame.key && (codec.aacHeader.isNone || !ctx.opened || ctx.aframe ≠ [])

-- `update` is ctx->opened after ngx_rtmp_hls_update_fragment.
def writeVideo (update : UInt64 → Bool → Bool) (codec : Codec) (ctx : Ctx) (frame : Mpegts.Frame) (log : List Report) : Outcome :=
  if update frame.dts (boundary codec ctx frame) then
    let written := Mpegts.writeFrame frame ctx.videoCc
    .write frame written.1 written.2 log
  else .leave .ok log

def convertMessage (update : UInt64 → Bool → Bool) (codec : Codec) (ctx : Ctx) (h : Header) (link : List (List UInt8)) : Outcome :=
  match copy 1 ⟨link,0⟩ with
  | .error log => .leave .error log
  | .ok (fmt,c) =>
    match copy 1 c with
    | .error log => .leave .error log
    | .ok (htype,c) =>
      if htype ≠ [1] then .leave .ok []
      else
        match copy 3 c with
        | .error log => .leave .error log
        | .ok (cts,c) =>
          match convert codec (link.flatten.length) ⟨c,⟨[],[]⟩,false,false⟩ with
          | .leave code log => .leave code log
          | .goOn st => writeVideo update codec ctx (videoFrame h (fmt.headD 0) (natural cts) st.out.bytes) st.out.log

def hlsVideo (update : UInt64 → Bool → Bool) (s : Session) (h : Header) (link : List (List UInt8)) : Outcome :=
  match s.hls,s.ctx,s.codec with
  | some true,some ctx,some codec =>
    if codec.avcHeader = [] ∨ h.mlen < 1 then .leave .ok []
    else if codec.videoCodecId ≠ 7 then .leave .ok []
    else convertMessage update codec ctx h link
  | _,_,_ => .leave .ok []

end NgxRtmp.HlsVideo
