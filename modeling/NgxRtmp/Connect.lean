import NgxRtmp.ServerNames

namespace NgxRtmp.Connect
open Search ServerNames

-- ngx_rtmp_connect_t; `behind` is the memory after the NUL of tc_url. trans, objectEncoding and
-- relayType are bits of doubles.
structure Command where
  trans : UInt64
  app : List UInt8
  args : List UInt8
  flashver : List UInt8
  swfUrl : List UInt8
  tcUrl : List UInt8
  behind : List UInt8
  acodecs : UInt32
  vcodecs : UInt32
  pageUrl : List UInt8
  objectEncoding : UInt64
  relayType : UInt64

-- What s->app_conf points at: the one of a server or of an application.
inductive AppConf where
  | server (s : Server)
  | application (a : Application)

def AppConf.vhost : AppConf → List UInt8
  | .server s => s.vhost
  | .application a => a.vhost

structure Result where
  trans : UInt64
  objectEncoding : UInt64

-- `pending` are the commands waiting for the reply to the notification.
structure Session where
  connected : Bool
  srvConf : Server
  appConf : Option AppConf
  hostIn : List UInt8
  portIn : List UInt8
  pageUrl : List UInt8
  app : List UInt8
  args : List UInt8
  flashver : List UInt8
  swfUrl : List UInt8
  tcUrl : List UInt8
  acodecs : UInt32
  vcodecs : UInt32
  relayType : UInt64
  autoPushed : Bool
  relay : Bool
  destroyed : Bool
  pending : List Command
  queued : List Result

def Session.finalize (s : Session) : Session := {s with destroyed:=true}

-- cmcf->servers, the default server of the address, and the hash of its names.
structure Config where
  servers : List Server
  default : Server
  virtualNames : Option (List UInt8 → Option Server)

def strchr (c : UInt8) : List UInt8 → Option (List UInt8)
  | [] => none
  | b::rest => if b = c then some (b::rest) else if b = 0 then none else strchr c rest

def strstr (pattern : List UInt8) : List UInt8 → Option (List UInt8)
  | [] => none
  | b::rest => if pattern.isPrefixOf (b::rest) then some (b::rest) else if b = 0 then none else strstr pattern rest

def strlen (memory : List UInt8) : Nat := (memory.takeWhile (· ≠ 0)).length

def between (start stop : List UInt8) : List UInt8 := start.take (start.length-stop.length)

def Command.memory (v : Command) : List UInt8 := v.tcUrl ++ 0::v.behind

structure Url where
  host : List UInt8
  port : Option (List UInt8)
  deriving DecidableEq, Repr

def vhostArg : List UInt8 := [118,104,111,115,116,61]
def schemeEnd : List UInt8 := [58,47,47]
def relayName : List UInt8 := [110,103,120,45,114,101,108,97,121]

def withPort (start stop : List UInt8) : Url :=
  ⟨between start stop,(strchr 47 (stop.drop 1)).map (between (stop.drop 1))⟩

-- A colon anywhere behind "://" ends the host; without colon and slash the NUL is part of it.
def parseTcurl (memory : List UInt8) : Option Url :=
  match strstr vhostArg memory with
  | some found =>
    let start := found.drop vhostArg.length
    some (withPort start ((strstr [38] start).getD (start.drop (strlen start))))
  | none =>
    (strstr schemeEnd memory).map fun found =>
      let start := found.drop schemeEnd.length
      withPort start (((strchr 58 start).orElse fun _ => strchr 47 start).getD (start.drop (strlen start+1)))

inductive Selection where
  | ok (server : Server)
  | declined
  | error
  | fault

def findVirtualServer (cfg : Config) (host : List UInt8) : Selection :=
  match cfg.virtualNames with
  | none => .declined
  | some find =>
    match find host with
    | some server => .ok server
    | none => .error

def select (cfg : Config) (host flashver : List UInt8) : Selection :=
  if relayName.isPrefixOf flashver then
    match relayConnect host cfg.servers with
    | .hit (server,_) => .ok server
    | .miss => .error
    | .fault => .fault
  else findVirtualServer cfg host

inductive Outcome where
  | done (s : Session) (ok : Bool)
  | call (s : Session) (v : Command)
  | crash

def setVirtualServer (cfg : Config) (s : Session) (v : Command) : Option Session :=
  match select cfg s.hostIn v.flashver with
  | .ok server => some {s with appConf:=some (.server server),srvConf:=server}
  | .declined => some s
  | .error => some s.finalize
  | .fault => none

def definst : List UInt8 := [47,95,100,101,102,105,110,115,116,95]

def trim (app : List UInt8) : List UInt8 :=
  if 10 < app.length ∧ app.drop (app.length-10) = definst then app.take (app.length-10)
  else if app.getLast? = some 47 then app.dropLast
  else app

def fillArgs (app : List UInt8) : List UInt8 × List UInt8 :=
  match strchr 63 app with
  | none => (app,[])
  | some found => (between app found,found.drop 1)

def Command.filled (v : Command) : Command :=
  {v with app:=(fillArgs (trim v.app)).1,args:=(fillArgs (trim v.app)).2}

-- ngx_rtmp_cmd_connect_init; the result of ngx_rtmp_set_virtual_server is not looked at.
def prepare (cfg : Config) (s : Session) (v : Command) : Option Session :=
  let s := {s with pageUrl:=v.pageUrl}
  match parseTcurl v.memory with
  | none => some s
  | some url => setVirtualServer cfg {s with hostIn:=url.host,portIn:=url.port.getD s.portIn} v

def connectInit (cfg : Config) (next : Session → Command → Outcome) (s : Session) (raw : Command) : Outcome :=
  match prepare cfg s raw.filled with
  | none => .crash
  | some s => next s raw.filled

def findApplication (server : Server) (app : List UInt8) : Option Application :=
  server.applications.find? fun a => a.name = app

def Session.join (s : Session) (app : List UInt8) : Session :=
  match findApplication s.srvConf app with
  | some a => {s with appConf:=some (.application a)}
  | none => s

-- ngx_atoi, as far as ngx_is_valid_ip looks at it
def octet (digits : List UInt8) : Bool :=
  !digits.isEmpty && digits.all (fun c => 48 ≤ c && c ≤ 57) &&
    digits.foldl (fun value c => value*10+(c.toUInt64-48)) (0 : UInt64) ≤ 255

def isValidIp (domain : List UInt8) : Bool :=
  (domain.splitOn 46).length ≤ 4 && (domain.splitOn 46).all octet

def vhostParam : List UInt8 := [118,104,111,115,116]

-- ngx_rtmp_vhost_connect. With an ampersand the length for ngx_memcpy is not positive.
def vhostCheck (vhost : List UInt8) (v : Command) : Hit Unit :=
  if vhost = [] then .hit ()
  else
    let domain := v.memory.drop 7
    match strchr 47 domain with
    | none => .miss
    | some slash =>
      if isValidIp (between domain slash) then
        if v.args = [] then .miss
        else match strchr 38 v.args with
          | some found => if found.length = v.args.length then .miss else .fault
          | none => match strchr 61 v.args with
            | none => .miss
            | some equal => if between v.args equal = vhostParam ∧ equal.drop 1 = vhost then .hit () else .miss
      else if between domain slash = vhost then .hit () else .miss

def vhostConnect (next : Session → Command → Outcome) (s : Session) (v : Command) : Outcome :=
  if s.autoPushed then next s v
  else
    let s := s.join v.app
    match s.appConf with
    | none => next s v
    | some conf =>
      match vhostCheck conf.vhost v with
      | .hit _ => next s v
      | .miss => .done s false
      | .fault => .crash

-- `created` is the success of ngx_rtmp_netcall_create up to its last line.
def notifyConnect (created : Bool) (next : Session → Command → Outcome) (s : Session) (v : Command) : Outcome :=
  if s.autoPushed || s.relay || !s.srvConf.onConnect then next s v
  else if created then .done {s with pending:=s.pending ++ [v]} (!s.destroyed)
  else .done s false

-- `sends` says that the four messages of the answer are taken by the queue.
def cmdConnect (sends : Bool) (s : Session) (v : Command) : Outcome :=
  if s.connected then .done s false
  else
    let s := {s with
      connected:=true,app:=(fillArgs v.app).1,args:=v.args,flashver:=v.flashver,swfUrl:=v.swfUrl,tcUrl:=v.tcUrl,
      pageUrl:=v.pageUrl,acodecs:=v.acodecs,vcodecs:=v.vcodecs,relayType:=v.relayType}
    let s := s.join s.app
    match s.appConf with
    | none => .done s false
    | some _ => if sends then .done {s with queued:=s.queued ++ [⟨v.trans,v.objectEncoding⟩]} true else .done s false

-- The reply to the notification; a redirect without a location changes nothing.
inductive Reply where
  | allow
  | redirect (app : List UInt8)
  | deny

inductive Event where
  | command (v : Command) (created sends : Bool)
  | malformed
  | response (i : Nat) (reply : Reply) (sends : Bool)

def Event.sends : Event → Bool
  | .command _ _ sends => sends
  | .malformed => false
  | .response _ _ sends => sends

-- Up to ngx_rtmp_cmd_connect, the last of the chain, which is `next`.
def chain (cfg : Config) (s : Session) (next : Session → Command → Outcome) : Event → Outcome
  | .command v created _ => connectInit cfg (vhostConnect (notifyConnect created next)) s v
  | .malformed => .done s false
  | .response i reply _ =>
    match s.pending[i]? with
    | none => .done s true
    | some v =>
      let s := {s with pending:=s.pending.eraseIdx i}
      match reply with
      | .allow => next s v
      | .redirect app => next s {v with app}
      | .deny => .done s false

def process (cfg : Config) (s : Session) (event : Event) : Outcome := chain cfg s (cmdConnect event.sends) event

end NgxRtmp.Connect
