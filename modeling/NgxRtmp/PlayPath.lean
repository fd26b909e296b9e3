import NgxRtmp.Lib.Paths
import NgxRtmp.ServerNames

namespace NgxRtmp.PlayPath
open ServerNames Paths

def slash : UInt8 := 0x2f
def dot : UInt8 := 0x2e

def maxPath : Nat := 4096

-- ngx_rtmp_play_fmt_t: flv has no prefix and the suffix ".flv", mp4 has "mp4:" and ".mp4".
structure Fmt where
  pfx : List UInt8
  sfx : List UInt8
  deriving DecidableEq, Repr

inductive Entry where
  | file (root : List UInt8)
  | remote (url : List UInt8)
  deriving DecidableEq, Repr

-- What ngx_rtmp_play_play leaves in its context for ngx_rtmp_play_next_entry.
structure Ctx where
  pfxSize : Nat
  sfx : List UInt8

inductive Outcome where
  | opened (root path : List UInt8)
  | openRemote (url : List UInt8)
  | streamNotFound
  | badName
  | nextPlay
  deriving DecidableEq, Repr

-- The loop over v->name: the text "/../" anywhere in it.
def doubleDot : List UInt8 → Bool
  | [] => false
  | c::rest => [slash,dot,dot,slash].isPrefixOf (c::rest) || doubleDot rest

def sameText (s text : List UInt8) : Bool := compare toLower s fun i => text.getD i 0

def hasPfx (fmt : Fmt) (name : List UInt8) : Bool :=
  fmt.pfx.length ≠ 0 && fmt.pfx.length ≤ name.length && sameText fmt.pfx name

def hasSfx (fmt : Fmt) (name : List UInt8) : Bool :=
  fmt.sfx.length ≤ name.length && sameText fmt.sfx (name.drop (name.length-fmt.sfx.length))

-- A prefix ends it, a suffix does not, and the first format without a prefix is the default.
def findFmt (name : List UInt8) : List Fmt → Option Fmt → Option (Fmt × Nat)
  | [],found => found.map fun fmt => (fmt,0)
  | fmt::fmts,found =>
    let found := if fmt.pfx.length = 0 ∧ found.isNone then some fmt else found
    if hasPfx fmt name then some (fmt,fmt.pfx.length)
    else findFmt name fmts (if hasSfx fmt name then some fmt else found)

def makeCtx (fmts : List Fmt) (name : List UInt8) : Option Ctx :=
  (findFmt name fmts none).map fun (fmt,pfxSize) => ⟨pfxSize,if hasSfx fmt name then [] else fmt.sfx⟩

def Ctx.rest (ctx : Ctx) (name : List UInt8) : List UInt8 := name.drop ctx.pfxSize ++ ctx.sfx

def localPath (ctx : Ctx) (root name : List UInt8) : List UInt8 :=
  (root ++ slash::ctx.rest name).take maxPath

-- `opens` is ngx_open_file.
def nextEntry (opens : List UInt8 → Bool) (ctx : Ctx) (name : List UInt8) : List Entry → Outcome
  | [] => .streamNotFound
  | .remote url::_ => .openRemote url
  | .file root::entries =>
    if opens (localPath ctx root name) then .opened root (localPath ctx root name)
    else nextEntry opens ctx name entries

-- `playing` is a session whose file is open already.
def playPlay (opens : List UInt8 → Bool) (fmts : List Fmt) (entries : List Entry) (playing : Bool)
    (name : List UInt8) : Outcome :=
  if entries = [] then .nextPlay
  else if playing then .nextPlay
  else if doubleDot name then .badName
  else match makeCtx fmts name with
    | none => .nextPlay
    | some ctx => nextEntry opens ctx name entries

-- The directory a root stands for: an empty one is the top, since "%V/" then begins the path.
def directory (root : List UInt8) : Place UInt8 := resolve slash dot (root ++ [slash])

def fromTop (root : List UInt8) : Bool := (root ++ [slash]).head? == some slash

def Ctx.place (ctx : Ctx) (name : List UInt8) : Place UInt8 :=
  follow dot false start (components slash (ctx.rest name))

-- The rest does not go up, or it comes back by the names of the root it went up.
def Returns (root : List UInt8) (place : Place UInt8) : Prop :=
  (fromTop root = true ∨ place.above ≤ (directory root).names.length) ∧
    (directory root).names.take place.above <:+ place.names

theorem nextEntry_opened (tried : nextEntry opens ctx name entries = .opened root path) :
    path = localPath ctx root name ∧ opens path = true := by
  induction entries with
  | nil => cases tried
  | cons entry entries ih =>
    cases entry with
    | remote url => cases tried
    | file own =>
      unfold nextEntry at tried
      split at tried
      · cases tried
        exact ⟨rfl,‹_›⟩
      · exact ih tried

theorem playPlay_opened (played : playPlay opens fmts entries playing name = .opened root path) :
    doubleDot name = false ∧ ∃ ctx, makeCtx fmts name = some ctx ∧
      path = localPath ctx root name ∧ opens path = true := by
  unfold playPlay at played
  split at played
  · cases played
  · split at played
    · cases played
    · split at played
      · cases played
      · rename_i checked
        refine ⟨by simpa using checked,?_⟩
        split at played
        · cases played
        · rename_i ctx made
          exact ⟨ctx,made,nextEntry_opened played⟩

theorem localPath_whole (short : (localPath ctx root name).length < maxPath) :
    localPath ctx root name = root ++ slash::ctx.rest name := by
  apply List.take_of_length_le
  simp only [localPath,List.length_take] at short
  omega

theorem directory_parts : directory root = follow dot (fromTop root) start (components slash root) := by
  unfold directory resolve
  rw [show root ++ [slash] = root ++ slash::[] from rfl,components_append,follow_append]
  rfl

theorem path_fromTop : ((root ++ slash::rest).head? == some slash) = fromTop root := by
  cases root <;> rfl

theorem resolve_path :
    resolve slash dot (root ++ slash::rest) =
      graft (fromTop root) (directory root) (follow dot false start (components slash rest)) := by
  unfold resolve
  rw [path_fromTop,components_append,follow_append,← directory_parts,follow_from]

-- open(2) fails for a path of PATH_MAX bytes or more.
theorem opened_inside_iff (opens : List UInt8 → Bool) (limit : ∀ path, opens path = true → path.length < maxPath)
    (fmts : List Fmt) (entries : List Entry) (playing : Bool) (name root path : List UInt8)
    (played : playPlay opens fmts entries playing name = .opened root path) :
    ∃ ctx, makeCtx fmts name = some ctx ∧
      (Inside (directory root) (resolve slash dot path) ↔ Returns root (ctx.place name)) := by
  obtain ⟨_,ctx,made,same,opened⟩ := playPlay_opened played
  have short := limit path opened
  rw [same] at short
  refine ⟨ctx,made,?_⟩
  rw [same,localPath_whole short,resolve_path]
  exact inside_graft

def flvFmt : Fmt := ⟨[],[0x2e,0x66,0x6c,0x76]⟩
def mp4Fmt : Fmt := ⟨[0x6d,0x70,0x34,0x3a],[0x2e,0x6d,0x70,0x34]⟩

def opensShort (path : List UInt8) : Bool := path.length < maxPath

theorem opened_inside_plain :
    ∃ ctx, makeCtx [flvFmt,mp4Fmt] [0x61,0x2e,0x66,0x6c,0x76] = some ctx ∧
      (Inside (directory [0x2f,0x76]) (resolve slash dot [0x2f,0x76,0x2f,0x61,0x2e,0x66,0x6c,0x76]) ↔
        Returns [0x2f,0x76] (ctx.place [0x61,0x2e,0x66,0x6c,0x76])) :=
  opened_inside_iff opensShort (fun _ short => by simpa [opensShort] using short) [flvFmt,mp4Fmt]
    [.file [0x2f,0x76]] false [0x61,0x2e,0x66,0x6c,0x76] [0x2f,0x76]
    [0x2f,0x76,0x2f,0x61,0x2e,0x66,0x6c,0x76] (by decide)

-- "../x.flv" under "/v" is "/x.flv"
theorem name_with_leading_dots_escapes :
    playPlay opensShort [flvFmt,mp4Fmt] [.file [0x2f,0x76]] false [0x2e,0x2e,0x2f,0x78,0x2e,0x66,0x6c,0x76] =
        .opened [0x2f,0x76] [0x2f,0x76,0x2f,0x2e,0x2e,0x2f,0x78,0x2e,0x66,0x6c,0x76] ∧
      doubleDot [0x2e,0x2e,0x2f,0x78,0x2e,0x66,0x6c,0x76] = false ∧
      ¬Inside (directory [0x2f,0x76]) (resolve slash dot [0x2f,0x76,0x2f,0x2e,0x2e,0x2f,0x78,0x2e,0x66,0x6c,0x76]) := by
  decide

end NgxRtmp.PlayPath
