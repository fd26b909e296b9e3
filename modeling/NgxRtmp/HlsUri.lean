import NgxRtmp.HlsRestoreRuns
import NgxRtmp.ServerNames

namespace NgxRtmp.HlsUri
open List
open HlsRestore (decimal bytes digits_shape)
open ServerNames (compare)

def slash : UInt8 := 47
def point : UInt8 := 46
def colon : UInt8 := 58

-- ngx_rtmp_core_app_conf_t with its ngx_rtmp_hls_app_conf_t
structure App where
  name : List UInt8
  hls : Bool
  path : List UInt8
  nested : Bool
  deriving DecidableEq

structure Server where
  names : List (List UInt8)
  applications : List App

-- Nothing else is known of the memory. No object is larger than half of the addresses.
structure Request where
  uri : List UInt8
  around : Int → UInt8
  bounded : uri.length < 2^63
  host : List UInt8
  vhost : List UInt8

def Request.byte (r : Request) (i : Int) : UInt8 :=
  if 0 ≤ i ∧ i < r.uri.length then r.uri.getD i.toNat 0 else r.around i

def Request.at (r : Request) (n : Nat) : UInt8 := r.byte (BitVec.ofNat 64 n).toInt

def ended (text : List UInt8) (i : Nat) : UInt8 := text.getD i 0

inductive PlayType where
  | ts
  | m3u8
  deriving DecidableEq

def endsIn (r : Request) (text : List UInt8) : Bool :=
  (range text.length).all fun k => r.byte (r.uri.length-1-k) == text.reverse.getD k 0

-- The tests of ngx_rtmp_http_hls_handler. The length is looked at for a playlist only.
def playType (r : Request) : Option PlayType :=
  if r.byte (r.uri.length-1) = slash ∧ r.uri.length > 3 then none
  else if endsIn r (bytes ".ts") then some .ts
  else if r.uri.length > 5 ∧ endsIn r (bytes ".m3u8") then some .m3u8
  else none

def offset (root : List UInt8) (app : App) : Nat := app.path.length-root.length

-- None of the comparisons sees the end of the URI or a byte beside the application.
def accepts (root : List UInt8) (r : Request) (app : App) : Bool :=
  app.hls && app.path ≠ [] && compare id root (ended app.path) && compare id (app.path.drop root.length) (fun i => r.at i) &&
    compare id app.name fun i => r.at (offset root app+1+i)

def nameData (root : List UInt8) (app : App) : Nat := offset root app+1+app.name.length+1

-- `while (name.len > 0 && *(name.data + (name.len--) - 1) != sep);`
def trim (byte : Nat → UInt8) (sep : UInt8) : Nat → Nat
  | 0 => 0
  | len+1 => if byte len = sep then len else trim byte sep len

def playlistSuffix (nested : Bool) : List UInt8 := if nested then bytes "/index.m3u8" else bytes ".m3u8"
def separator (nested : Bool) : UInt8 := if nested then slash else point

def nameLen (root : List UInt8) (r : Request) (pt : PlayType) (app : App) : Nat :=
  let len := UInt64.ofNat r.uri.length-UInt64.ofNat (offset root app)-1-UInt64.ofNat app.name.length-1
  match pt with
  | .ts => trim (fun n => r.at (nameData root app+n)) (separator app.nested) (len-3).toNat
  | .m3u8 => (len-UInt64.ofNat (playlistSuffix app.nested).length).toNat

structure Found where
  app : App
  host : List UInt8
  data : Nat
  len : Nat
  deriving DecidableEq

def serves (r : Request) (name : List UInt8) : Bool :=
  compare id name (ended r.host) || (name.length == r.vhost.length && compare id name (ended r.vhost))

-- ngx_rtmp_http_hls_match_app; the host is the first name of the server whichever matched.
def matchApp (root : List UInt8) (servers : List Server) (r : Request) (pt : PlayType) : Option Found :=
  servers.findSome? fun server => server.names.findSome? fun name =>
    if serves r name then
      (server.applications.find? (accepts root r)).map fun app =>
        ⟨app,server.names.headD [],nameData root app,nameLen root r pt app⟩
    else none

-- s->name in ngx_rtmp_hls_init_connection: 256 zeroed bytes, and a copy without a bound.
def sessionName (r : Request) (found : Found) : Option (List UInt8) :=
  if found.len ≤ 256 then
    some ((range found.len).map (fun i => r.at (found.data+i)) ++ replicate (256-found.len) 0)
  else none

def handle (root : List UInt8) (servers : List Server) (r : Request) : Option (PlayType × Found) :=
  (playType r).bind fun pt => (matchApp root servers r pt).map fun found => (pt,found)

inductive Suffix (nested : Bool) : PlayType → List UInt8 → Prop
  | playlist : Suffix nested .m3u8 (playlistSuffix nested)
  | fragment (id : UInt64) : Suffix nested .ts (separator nested::(decimal id.toNat ++ bytes ".ts"))

def FileAt (root : List UInt8) (app : App) (pt : PlayType) (uri name : List UInt8) : Prop :=
  ∃ suffix, Suffix app.nested pt suffix ∧
    uri = app.path.drop root.length ++ (slash::app.name ++ (slash::name ++ suffix))

theorem compare_prefix (clean : 0 ∉ text) (memory : List UInt8) : compare id text (ended memory) = true → text <+: memory := by
  induction text generalizing memory with
  | nil => intro _; exact nil_prefix
  | cons c text ih =>
    have visible : c ≠ 0 := fun zero => clean (by simp [zero])
    cases memory with
    | nil => simp [ServerNames.compare,ended,visible]
    | cons d memory =>
      intro same
      have shifted : (fun i => ended (d::memory) (i+1)) = ended memory := rfl
      simp only [ServerNames.compare,id_eq,shifted,visible,if_false] at same
      split at same
      · rename_i equal
        exact cons_prefix_cons.mpr ⟨equal,ih (fun inside => clean (mem_cons_of_mem _ inside)) memory same⟩
      · cases same

theorem at_inside {r : Request} (inside : n < r.uri.length) : r.at n = r.uri.getD n 0 := by
  have bound := r.bounded
  have address : (BitVec.ofNat 64 n).toInt = n := by
    rw [BitVec.toInt_eq_toNat_cond,BitVec.toNat_ofNat,Nat.mod_eq_of_lt (by omega),if_pos (by omega)]
  rw [Request.at,address,Request.byte,if_pos ⟨by omega,by omega⟩,Int.toNat_natCast]

theorem trim_back (here : byte n = sep) (clear : ∀ i, n < i → i ≤ n+d → byte i ≠ sep) : trim byte sep (n+1+d) = n := by
  induction d with
  | zero => simp [trim,here]
  | succ d ih =>
    change (if byte (n+1+d) = sep then n+1+d else trim byte sep (n+1+d)) = n
    rw [if_neg (clear _ (by omega) (by omega))]
    exact ih fun i after upto => clear i after (by omega)

theorem decimal_clear : separator nested ∉ decimal n := by
  intro inside
  have digit := (digits_shape 20 n (by decide)).2.2 _ inside
  cases nested <;> simp [separator,slash,point] at digit

theorem sub_toNat (fits : a+b < 2^64) : (UInt64.ofNat (a+b)-UInt64.ofNat b).toNat = a := by
  rw [UInt64.toNat_sub,UInt64.toNat_ofNat',UInt64.toNat_ofNat']
  omega

theorem rest_len (root : List UInt8) (app : App) (n : Nat) :
    UInt64.ofNat (nameData root app+n)-UInt64.ofNat (offset root app)-1-UInt64.ofNat app.name.length-1 = UInt64.ofNat n := by
  unfold nameData
  apply UInt64.toNat_inj.mp
  simp only [UInt64.toNat_sub,UInt64.toNat_ofNat',UInt64.toNat_one]
  omega

theorem nameLen_file (file : FileAt root app pt r.uri name) : nameLen root r pt app = name.length := by
  have bound := r.bounded
  obtain ⟨suffix,known,uri⟩ := file
  have size : (app.path.drop root.length).length = offset root app := length_drop
  have length : r.uri.length = nameData root app+(name.length+suffix.length) := by
    rw [uri]
    simp only [length_append,length_cons,size,nameData]
    omega
  have shown : ∀ n, n < name.length+suffix.length → r.at (nameData root app+n) = (name ++ suffix).getD n 0 := by
    intro n inside
    have front : (app.path.drop root.length ++ (slash::app.name ++ [slash])).length = nameData root app := by
      simp only [length_append,length_cons,length_nil,size,nameData]
      omega
    have cut : r.uri = (app.path.drop root.length ++ (slash::app.name ++ [slash])) ++ (name ++ suffix) := by
      rw [uri]
      simp
    rw [at_inside (by omega),cut,getD_append_right _ _ _ _ (by omega),front,Nat.add_sub_cancel_left]
  have left := rest_len root app (name.length+suffix.length)
  unfold nameLen
  simp only [length,left]
  cases known with
  | playlist =>
    apply sub_toNat
    omega
  | fragment id =>
    generalize digits_eq : decimal id.toNat = ds at *
    have clear : separator app.nested ∉ ds := digits_eq ▸ decimal_clear
    have three : (bytes ".ts").length = 3 := by decide
    have stripped : (UInt64.ofNat (name.length+(separator app.nested::(ds ++ bytes ".ts")).length)-3).toNat =
        name.length+1+ds.length := by
      have regroup : name.length+(separator app.nested::(ds ++ bytes ".ts")).length = name.length+1+ds.length+3 := by
        simp only [length_cons,length_append,three]
        omega
      rw [regroup]
      apply sub_toNat (b:=3)
      simp only [length_cons,length_append,three] at length
      omega
    rw [stripped]
    apply trim_back
    · rw [shown _ (by simp)]
      simp
    · intro i after upto same
      rw [shown i (by simp; omega),getD_append_right _ _ _ _ (by omega)] at same
      obtain ⟨j,rfl⟩ : ∃ j, i = name.length+1+j := ⟨i-name.length-1,by omega⟩
      have inside : j < ds.length := by omega
      rw [show name.length+1+j-name.length = j+1 by omega,getD_cons_succ,getD_append _ _ _ _ inside,
        getD_eq_getElem _ _ inside] at same
      exact clear (same ▸ getElem_mem inside)

theorem matchApp_found (matched : matchApp root servers r pt = some found) :
    found.data = nameData root found.app ∧ found.len = nameLen root r pt found.app := by
  obtain ⟨server,_,named⟩ := exists_of_findSome?_eq_some matched
  obtain ⟨name,_,some_app⟩ := exists_of_findSome?_eq_some named
  split at some_app
  · obtain ⟨app,_,rfl⟩ := Option.map_eq_some_iff.mp some_app
    exact ⟨rfl,rfl⟩
  · cases some_app

-- The URI is that of a file of the stream, and the session has its name.
structure Named (root : List UInt8) (r : Request) (pt : PlayType) (found : Found) : Prop where
  inside : found.data+found.len ≤ r.uri.length
  short : found.len < 256
  file : FileAt root found.app pt r.uri ((r.uri.drop found.data).take found.len)
  session : sessionName r found = some ((r.uri.drop found.data).take found.len ++ replicate (256-found.len) 0)

theorem sessionName_inside (inside : found.data+found.len ≤ r.uri.length) (short : found.len < 256) :
    sessionName r found = some ((r.uri.drop found.data).take found.len ++ replicate (256-found.len) 0) := by
  have copied : (range found.len).map (fun i => r.at (found.data+i)) = (r.uri.drop found.data).take found.len := by
    apply ext_getElem
    · simp only [length_map,length_range,length_take,length_drop]
      omega
    · intro i left right
      simp only [length_map,length_range] at left
      simp only [getElem_map,getElem_range,getElem_take,getElem_drop]
      rw [at_inside (by omega),getD_eq_getElem _ _ (by omega)]
  rw [sessionName,if_pos (by omega),copied]

theorem uri_named_iff (root : List UInt8) (servers : List Server) (r : Request) (pt : PlayType) (found : Found)
    (accepted : handle root servers r = some (pt,found)) :
    Named root r pt found ↔ ∃ name, name.length < 256 ∧ FileAt root found.app pt r.uri name := by
  have matched : found.data = nameData root found.app ∧ found.len = nameLen root r pt found.app := by
    obtain ⟨own,_,mapped⟩ := Option.bind_eq_some_iff.mp accepted
    obtain ⟨got,matched,same⟩ := Option.map_eq_some_iff.mp mapped
    cases same
    exact matchApp_found matched
  constructor
  · intro named
    refine ⟨_,?_,named.file⟩
    rw [length_take]
    exact lt_of_le_of_lt (Nat.min_le_left _ _) named.short
  · rintro ⟨name,short,file⟩
    have len : found.len = name.length := matched.2.trans (nameLen_file file)
    have whole := file
    obtain ⟨suffix,known,uri⟩ := file
    have front : (found.app.path.drop root.length ++ (slash::found.app.name ++ [slash])).length = found.data := by
      simp only [length_append,length_cons,length_nil,length_drop,matched.1,nameData,offset]
      omega
    have cut : r.uri = (found.app.path.drop root.length ++ (slash::found.app.name ++ [slash])) ++ (name ++ suffix) := by
      rw [uri]
      simp
    have extracted : (r.uri.drop found.data).take found.len = name := by
      rw [cut,← front,drop_left,len,take_left]
    have inside : found.data+found.len ≤ r.uri.length := by
      rw [cut,length_append,front,length_append,len]
      omega
    have small : found.len < 256 := by omega
    exact ⟨inside,small,extracted.symm ▸ whole,sessionName_inside inside small⟩

def liveServer (nested : Bool) : List Server := [⟨[bytes "a"],[⟨bytes "live",true,bytes "/tmp/hls",nested⟩]⟩]
def asked (uri : List UInt8) (bounded : uri.length < 2^63) : Request := ⟨uri,fun _ => 0,bounded,bytes "a",[]⟩

theorem room_named :
    ∃ found, handle (bytes "/tmp") (liveServer true) (asked (bytes "/hls/live/room/7.ts") (by decide)) = some (.ts,found) ∧
      Named (bytes "/tmp") (asked (bytes "/hls/live/room/7.ts") (by decide)) .ts found ∧ found.data = 10 ∧ found.len = 4 := by
  have run : handle (bytes "/tmp") (liveServer true) (asked (bytes "/hls/live/room/7.ts") (by decide)) =
      some (.ts,⟨⟨bytes "live",true,bytes "/tmp/hls",true⟩,bytes "a",10,4⟩) := by decide +kernel
  refine ⟨_,run,(uri_named_iff _ _ _ _ _ run).mpr ⟨bytes "room",by decide,_,.fragment 7,by decide⟩,rfl,rfl⟩

-- A component that only begins with the name of the application
theorem component_misread :
    ∃ found, handle (bytes "/tmp") (liveServer false) (asked (bytes "/hls/live2/room.m3u8") (by decide)) = some (.m3u8,found) ∧
      (bytes "/hls/live2/room.m3u8").drop found.data = bytes "/room.m3u8" ∧ found.len = 5 ∧
      ¬ Named (bytes "/tmp") (asked (bytes "/hls/live2/room.m3u8") (by decide)) .m3u8 found := by
  have run : handle (bytes "/tmp") (liveServer false) (asked (bytes "/hls/live2/room.m3u8") (by decide)) =
      some (.m3u8,⟨⟨bytes "live",true,bytes "/tmp/hls",false⟩,bytes "a",10,5⟩) := by decide +kernel
  refine ⟨_,run,by decide,rfl,?_⟩
  intro named
  obtain ⟨suffix,known,uri⟩ := named.file
  have ninth := congrArg (fun text => text.getD 9 0) uri
  exact absurd ninth (by simp [asked,bytes,slash])

end NgxRtmp.HlsUri
