import NgxRtmp.HlsWindow

namespace NgxRtmp.HlsRestore

open HlsWindow

def bytes (text : String) : List UInt8 := text.toList.map fun c => UInt8.ofNat c.toNat

def newline : UInt8 := 10

-- ngx_sprintf_num with room for the twenty digits of a 64-bit number.
def digits : Nat → Nat → List UInt8
  | 0,_ => []
  | width+1,n => if n < 10 then [UInt8.ofNat (48+n)] else digits width (n/10) ++ [UInt8.ofNat (48+n % 10)]

def decimal (n : Nat) : List UInt8 := digits 20 n

-- %.3f, the thousandths rounded half up and carried into the seconds.
def seconds (duration : UInt64) : List UInt8 :=
  let thousandths := (duration.toNat*1000+45000)/90000
  decimal (thousandths/1000) ++ bytes "." ++
    [UInt8.ofNat (48+thousandths/100 % 10),UInt8.ofNat (48+thousandths/10 % 10),UInt8.ofNat (48+thousandths % 10)]

-- What ngx_rtmp_hls_write_playlist takes from the configuration and the context for its text.
structure Site where
  nested : Bool
  event : Bool
  baseUrl : List UInt8
  name : List UInt8

def header (site : Site) (p : Playlist) : List UInt8 :=
  bytes "#EXTM3U\n" ++ bytes "#EXT-X-VERSION:3\n" ++
  bytes "#EXT-X-MEDIA-SEQUENCE:" ++ decimal p.sequence.toNat ++ [newline] ++
  bytes "#EXT-X-TARGETDURATION:" ++ decimal p.target ++ [newline] ++
  (if site.event then bytes "#EXT-X-PLAYLIST-TYPE: EVENT\n" else [])

def namePart (site : Site) : List UInt8 := if !site.nested || site.baseUrl ≠ [] then site.name else []
def dot (site : Site) : List UInt8 := if site.nested then [] else bytes "."
def sep (site : Site) : List UInt8 := if site.nested ∧ site.baseUrl ≠ [] then bytes "/" else []

def uri (site : Site) (f : Frag) : List UInt8 :=
  site.baseUrl ++ namePart site ++ dot site ++ sep site ++ decimal f.id.toNat ++ bytes ".ts"

def entry (site : Site) (f : Frag) : List UInt8 :=
  (if f.discont then bytes "#EXT-X-DISCONTINUITY\n" else []) ++
  bytes "#EXTINF:" ++ seconds f.duration ++ bytes ",\n" ++ uri site f ++ [newline]

def printed (text : List UInt8) : List UInt8 := text.take 1024

def playlistText (site : Site) (p : Playlist) : List UInt8 :=
  printed (header site p) ++ p.entries.flatMap fun f => printed (entry site f)

-- The double nearest to a natural number, ties to even.
def double (n : Nat) : Nat :=
  if n < 2^53 then n
  else
    let unit := 2^(n.log2-52)
    let low := n/unit
    if 2*(n % unit) > unit ∨ (2*(n % unit) = unit ∧ low % 2 = 1) then (low+1)*unit else low*unit

def isDigit (b : UInt8) : Bool := 48 ≤ b ∧ b ≤ 57

-- strtod on an unsigned number without fraction and exponent.
def strtod (text : List UInt8) : Nat :=
  double ((text.takeWhile isDigit).foldl (fun n b => 10*n+(b.toNat-48)) 0)

structure Restoring where
  frag : UInt64
  maxid : UInt64

def mseq : List UInt8 := bytes "#EXT-X-MEDIA-SEQUENCE:"

-- The number before `.ts`, from its last digit on.
def trailingId : List UInt8 → UInt64 × UInt64 → UInt64
  | [],sum => sum.1
  | b::rest,(tmpid,mag) => if isDigit b then trailingId rest (tmpid+UInt64.ofNat (b.toNat-48)*mag,mag*10) else tmpid

def restoreSequence (line : List UInt8) (st : Restoring) : Restoring :=
  if mseq.isPrefixOf line then {st with frag:=UInt64.ofNat (strtod (line.drop mseq.length))} else st

def restoreId (line : List UInt8) (st : Restoring) : Restoring :=
  let shown := if line.getLast? = some 13 then line.dropLast else line
  if 4 ≤ shown.length ∧ shown.drop (shown.length-3) = bytes ".ts" then
    let tmpid := trailingId (shown.take (shown.length-3)).reverse (0,1)
    if tmpid > st.maxid then {st with maxid:=tmpid} else st
  else st

-- The duration and the discontinuity are read into variables nothing uses.
def restoreLine (line : List UInt8) (st : Restoring) : Restoring := restoreId line (restoreSequence line st)

-- The inner loop over one buffer; what is left is the start of a line.
def restoreLines : Nat → List UInt8 → Restoring → Restoring × List UInt8
  | 0,p,st => (st,p)
  | fuel+1,p,st =>
    match p.dropWhile (· ≠ newline) with
    | [] => (st,p)
    | _::next => restoreLines fuel next (restoreLine (p.takeWhile (· ≠ newline)) st)

-- The outer loop. Both exits are `goto done`, so the assignment of ++maxid is never made.
def restoreLoop (got : Nat → Nat) (text : List UInt8) : Nat → Nat → Restoring → Restoring
  | 0,_,st => st
  | fuel+1,offset,st =>
    let buffer := (text.drop offset).take (got offset)
    if buffer = [] then st
    else
      let scanned := restoreLines buffer.length buffer st
      if scanned.2.length = buffer.length then st
      else restoreLoop got text fuel (offset+(buffer.length-scanned.2.length)) scanned.1

-- `text` is the backup playlist, `got` the number of bytes each read returns.
def restoreStream (got : Nat → Nat) (text : Option (List UInt8)) (ctx : Ctx) : Ctx :=
  match text with
  | none => ctx
  | some text => {ctx with nfrags:=0,frag:=(restoreLoop got text text.length 0 ⟨ctx.frag,0⟩).frag}

end NgxRtmp.HlsRestore
