import NgxRtmp.Lib.Search

namespace NgxRtmp.ServerNames
open Search List

-- ngx_str_t: the memory at its data, with whatever lies behind the `len` bytes. None is NULL.
structure Str where
  data : Option (Nat → UInt8)
  len : Nat

def Str.text (s : Str) : List UInt8 :=
  match s.data with
  | none => []
  | some memory => (range s.len).map memory

structure ServerName where
  name : Str
  upSrvName : Str

-- ngx_rtmp_core_app_conf_t with the vhost of its app_conf. `id` stands for the address.
structure Application where
  id : Nat
  name : List UInt8
  vhost : List UInt8

-- ngx_rtmp_core_srv_conf_t; `onConnect` says that ngx_rtmp_notify_module has a URL.
structure Server where
  id : Nat
  names : List ServerName
  applications : List Application
  vhost : List UInt8
  onConnect : Bool

def toLower (c : UInt8) : UInt8 := if 65 ≤ c ∧ c ≤ 90 then c ||| 0x20 else c

-- The loop of strncmp and ngx_strncasecmp over the n bytes of the first string;
-- true is 0.
def compare (fold : UInt8 → UInt8) : List UInt8 → (Nat → UInt8) → Bool
  | [],_ => true
  | c::rest,memory =>
    if fold c = fold (memory 0) then
      if fold c = 0 then true else compare fold rest fun i => memory (i+1)
    else false

-- With NULL the loop faults unless it has nothing to compare.
def compareStr (fold : UInt8 → UInt8) (host : List UInt8) (s : Str) : Hit Unit :=
  match s.data with
  | some memory => if compare fold host memory then .hit () else .miss
  | none => if host = [] then .hit () else .fault

def ngxStrncmp : List UInt8 → Str → Hit Unit := compareStr id
def ngxStrncasecmp : List UInt8 → Str → Hit Unit := compareStr toLower

def walk (test : ServerName → Hit Unit) (servers : List Server) : Hit (Server × ServerName × Unit) :=
  first (fun server => first test server.names) servers

def upOrName (host : List UInt8) (n : ServerName) : Hit Unit :=
  match ngxStrncasecmp host n.upSrvName with
  | .miss => ngxStrncasecmp host n.name
  | result => result

-- ngx_rtmp_set_virtual_server, for a flashVer that begins with the relay's name
def relayConnect (host : List UInt8) := walk (upOrName host)

-- ngx_rtmp_hls_get_server_name, which gives the name found
def hlsGetServerName (host : List UInt8) := walk fun n => ngxStrncmp host n.upSrvName

def notifyPlayCreate (host : List UInt8) := walk (upOrName host)

def controlWalk (host : List UInt8) := walk fun n => ngxStrncasecmp host n.upSrvName

inductive Lookup where
  | relayConnect
  | hlsGetServerName
  | notifyPlayCreate
  | controlWalk
  deriving DecidableEq, Repr

def Lookup.find (look : Lookup) : List UInt8 → List Server → Hit (Server × ServerName × Unit) :=
  match look with
  | .relayConnect => ServerNames.relayConnect
  | .hlsGetServerName => ServerNames.hlsGetServerName
  | .notifyPlayCreate => ServerNames.notifyPlayCreate
  | .controlWalk => ServerNames.controlWalk

def Begins (fold : UInt8 → UInt8) (host : List UInt8) (s : Str) : Prop :=
  match s.data with
  | none => host = []
  | some memory => ∀ i c, host[i]? = some c → 0 ∉ host.take i → fold c = fold (memory i)

def Differs (fold : UInt8 → UInt8) (host : List UInt8) (s : Str) : Prop := s.data.isSome ∧ ¬Begins fold host s

theorem compare_iff (zero : ∀ c, fold c = 0 ↔ c = 0) :
    compare fold host memory = true ↔ ∀ i c, host[i]? = some c → 0 ∉ host.take i → fold c = fold (memory i) := by
  induction host generalizing memory with
  | nil => simp [compare]
  | cons b rest ih =>
    have split : (∀ i c, (b::rest)[i]? = some c → 0 ∉ (b::rest).take i → fold c = fold (memory i)) ↔
        fold b = fold (memory 0) ∧ (b ≠ 0 → ∀ i c, rest[i]? = some c → 0 ∉ rest.take i → fold c = fold (memory (i+1))) := by
      constructor
      · intro all
        refine ⟨all 0 b rfl (by simp),fun going i c found free => all (i+1) c found ?_⟩
        simp only [take_succ_cons,mem_cons,not_or]
        exact ⟨fun equal => going equal.symm,free⟩
      · rintro ⟨head,tail⟩ i c found free
        cases i with
        | zero =>
          cases found
          exact head
        | succ i =>
          simp only [take_succ_cons,mem_cons,not_or] at free
          exact tail (fun equal => free.1 equal.symm) i c found free.2
    rw [split,compare]
    by_cases same : fold b = fold (memory 0)
    · rw [if_pos same]
      by_cases ended : b = 0
      · rw [if_pos ((zero b).mpr ended)]
        exact ⟨fun _ => ⟨same,fun going => absurd ended going⟩,fun _ => rfl⟩
      · have more : ¬fold b = 0 := fun equal => ended ((zero b).mp equal)
        rw [if_neg more,ih]
        simp [same,ended]
    · simp [same]

theorem toLower_zero (c : UInt8) : toLower c = 0 ↔ c = 0 := by
  have all : ∀ n < 256, toLower (UInt8.ofNat n) = 0 ↔ UInt8.ofNat n = 0 := by decide +kernel
  simpa using all c.toNat c.toNat_lt

section Compare
variable {fold : UInt8 → UInt8} (zero : ∀ c, fold c = 0 ↔ c = 0) (host : List UInt8) (s : Str)
include zero

theorem compareStr_hit : compareStr fold host s = .hit () ↔ Begins fold host s := by
  unfold compareStr Begins
  cases s.data with
  | none => simp
  | some memory => simp [←compare_iff zero]

theorem compareStr_miss : compareStr fold host s = .miss ↔ Differs fold host s := by
  unfold compareStr Differs Begins
  cases s.data with
  | none => by_cases empty : host = [] <;> simp [empty]
  | some memory => simp [←compare_iff zero]

end Compare

def Lookup.Takes (look : Lookup) (host : List UInt8) (n : ServerName) : Prop :=
  match look with
  | .relayConnect | .notifyPlayCreate =>
    Begins toLower host n.upSrvName ∨ (Differs toLower host n.upSrvName ∧ Begins toLower host n.name)
  | .hlsGetServerName => Begins id host n.upSrvName
  | .controlWalk => Begins toLower host n.upSrvName

def Lookup.Passes (look : Lookup) (host : List UInt8) (n : ServerName) : Prop :=
  match look with
  | .relayConnect | .notifyPlayCreate => Differs toLower host n.upSrvName ∧ Differs toLower host n.name
  | .hlsGetServerName => Differs id host n.upSrvName
  | .controlWalk => Differs toLower host n.upSrvName

def Lookup.test (look : Lookup) (host : List UInt8) : ServerName → Hit Unit :=
  match look with
  | .relayConnect | .notifyPlayCreate => upOrName host
  | .hlsGetServerName => fun n => ngxStrncmp host n.upSrvName
  | .controlWalk => fun n => ngxStrncasecmp host n.upSrvName

theorem upOrName_hit : upOrName host n = .hit () ↔
    Begins toLower host n.upSrvName ∨ (Differs toLower host n.upSrvName ∧ Begins toLower host n.name) := by
  rw [←compareStr_hit toLower_zero,←compareStr_miss toLower_zero,←compareStr_hit toLower_zero]
  unfold upOrName ngxStrncasecmp
  cases compareStr toLower host n.upSrvName <;> simp

theorem upOrName_miss : upOrName host n = .miss ↔ Differs toLower host n.upSrvName ∧ Differs toLower host n.name := by
  rw [←compareStr_miss toLower_zero,←compareStr_miss toLower_zero]
  unfold upOrName ngxStrncasecmp
  cases compareStr toLower host n.upSrvName <;> simp

theorem Lookup.test_hit (look : Lookup) (host : List UInt8) (n : ServerName) :
    look.test host n = .hit () ↔ look.Takes host n := by
  cases look with
  | relayConnect | notifyPlayCreate => exact upOrName_hit
  | hlsGetServerName => exact compareStr_hit (fun _ => Iff.rfl) host n.upSrvName
  | controlWalk => exact compareStr_hit toLower_zero host n.upSrvName

theorem Lookup.test_miss (look : Lookup) (host : List UInt8) (n : ServerName) :
    look.test host n = .miss ↔ look.Passes host n := by
  cases look with
  | relayConnect | notifyPlayCreate => exact upOrName_miss
  | hlsGetServerName => exact compareStr_miss (fun _ => Iff.rfl) host n.upSrvName
  | controlWalk => exact compareStr_miss toLower_zero host n.upSrvName

theorem Lookup.find_walk (look : Lookup) (host : List UInt8) (servers : List Server) :
    look.find host servers = walk (look.test host) servers := by
  cases look <;> rfl

def same (host : List UInt8) (s : Str) : Bool := (host.takeWhile (· ≠ 0)).map toLower = s.text.map toLower

def Named (host : List UInt8) (server : Server) : Prop :=
  ∃ n ∈ server.names, same host n.name = true ∨ same host n.upSrvName = true

structure Reached (look : Lookup) (host : List UInt8) (servers : List Server) (server : Server) : Prop where
  position : ∃ before after, servers = before ++ server::after ∧ ∀ other ∈ before, ∀ n ∈ other.names, look.Passes host n
  name : ∃ n before after, server.names = before ++ n::after ∧ (∀ m ∈ before, look.Passes host m) ∧ look.Takes host n

theorem find_reached : (∃ found, look.find host servers = .hit (server,found)) ↔ Reached look host servers server := by
  rw [look.find_walk]
  unfold walk
  constructor
  · rintro ⟨⟨n,⟨⟩⟩,found⟩
    obtain ⟨before,after,position,passed,here⟩ := first_hit.mp found
    obtain ⟨nbefore,nafter,names,skipped,taken⟩ := first_hit.mp here
    refine ⟨⟨before,after,position,fun other inside m member => ?_⟩,⟨n,nbefore,nafter,names,fun m member => ?_,?_⟩⟩
    · exact (look.test_miss host m).mp (first_miss.mp (passed other inside) m member)
    · exact (look.test_miss host m).mp (skipped m member)
    · exact (look.test_hit host n).mp taken
  · rintro ⟨⟨before,after,position,passed⟩,⟨n,nbefore,nafter,names,skipped,taken⟩⟩
    refine ⟨(n,()),first_hit.mpr ⟨before,after,position,fun other inside => ?_,?_⟩⟩
    · exact first_miss.mpr fun m member => (look.test_miss host m).mpr (passed other inside m member)
    · exact first_hit.mpr ⟨nbefore,nafter,names,fun m member => (look.test_miss host m).mpr (skipped m member),
        (look.test_hit host n).mpr taken⟩

theorem lookup_isolates_iff (look : Lookup) (host : List UInt8) (servers : List Server) :
    (∀ server found, look.find host servers = .hit (server,found) → Named host server) ↔
      ∀ server, Reached look host servers server → Named host server := by
  constructor
  · intro isolated server reached
    obtain ⟨found,here⟩ := find_reached.mpr reached
    exact isolated server found here
  · intro named server found here
    exact named server (find_reached.mp ⟨found,here⟩)

def Str.of (text : List UInt8) : Str := ⟨some fun i => text.getD i 0,text.length⟩

def namedServer : Server := ⟨0,[⟨.of [108,105,118,101,46,99,111,109],.of [117,112,46,99,111,109]⟩],[],[],false⟩

def selected : Hit (Server × ServerName × Unit) → Option Nat
  | .hit (server,_) => some server.id
  | _ => none

-- Every lookup finds the server for the empty host and for "up".
theorem empty_host_selects :
    [Lookup.relayConnect,.hlsGetServerName,.notifyPlayCreate,.controlWalk].map
      (fun look => (selected (look.find [] [namedServer]),selected (look.find [117,112] [namedServer]))) =
        replicate 4 (some 0,some 0) ∧
      ¬Named [] namedServer ∧ ¬Named [117,112] namedServer := by
  unfold Named
  decide

end NgxRtmp.ServerNames
