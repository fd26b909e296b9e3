import NgxRtmp.ConnectSelection

namespace NgxRtmp.Connect
open Search ServerNames

structure Frame where
  srvConf : Server
  appConf : Option AppConf
  hostIn : List UInt8
  portIn : List UInt8
  pageUrl : List UInt8

def Session.frame (s : Session) : Frame := ⟨s.srvConf,s.appConf,s.hostIn,s.portIn,s.pageUrl⟩

def landed (cfg : Config) (s : Session) (v : Command) : Option (Server × Option AppConf) :=
  match parseTcurl v.memory with
  | none => some (s.srvConf,s.appConf)
  | some url =>
    match select cfg url.host v.flashver with
    | .ok server => some (server,some (.server server))
    | .fault => none
    | _ => some (s.srvConf,s.appConf)

-- srv_conf and app_conf as the duplicate check finds them; none if a fault comes first.
def written (cfg : Config) (s : Session) (v : Command) : Option (Server × Option AppConf) :=
  (landed cfg s v).bind fun (server,conf) =>
    if s.autoPushed then some (server,conf)
    else
      let conf := ((findApplication server v.app).map AppConf.application).or conf
      if conf.any fun c => vhostCheck c.vhost v = .fault then none else some (server,conf)

structure Repeats (cfg : Config) (s : Session) (v : Command) : Prop where
  page : v.pageUrl = s.pageUrl
  url : ∀ url, parseTcurl v.memory = some url → url.host = s.hostIn ∧ url.port.getD s.portIn = s.portIn
  conf : written cfg s v = some (s.srvConf,s.appConf)

def addressed (s : Session) (v : Command) (conf : Server × Option AppConf) : Frame :=
  ⟨conf.1,conf.2,(parseTcurl v.memory).elim s.hostIn (·.host),
    (parseTcurl v.memory).elim s.portIn fun url => url.port.getD s.portIn,v.pageUrl⟩

theorem prepare_landed (cfg : Config) (s : Session) (v : Command) :
    (prepare cfg s v).map Session.frame = (landed cfg s v).map (addressed s v) := by
  unfold prepare landed addressed setVirtualServer
  cases parseTcurl v.memory with
  | none => rfl
  | some url =>
    dsimp only
    cases select cfg url.host v.flashver <;> rfl

theorem before_written (cfg : Config) (s : Session) (v : Command) :
    (before cfg s v).map Session.frame = (written cfg s v).map (addressed s v) := by
  have start := prepare_landed cfg s v
  unfold before written
  cases prepared : prepare cfg s v with
  | none =>
    rw [prepared] at start
    rw [Option.map_eq_none_iff.mp start.symm]
    rfl
  | some u =>
    rw [prepared] at start
    obtain ⟨⟨server,conf⟩,land,frame⟩ := Option.map_eq_some_iff.mp start.symm
    have pushed : u.autoPushed = s.autoPushed := by
      obtain ⟨_,_,_,_,_,_,rfl⟩ := prepare_frame prepared
      rfl
    have conf' : u.srvConf = server ∧ u.appConf = conf :=
      ⟨(congrArg Frame.srvConf frame).symm,(congrArg Frame.appConf frame).symm⟩
    obtain ⟨rfl,rfl⟩ := conf'
    simp only [land,Option.bind_some,faults,join_appConf,pushed]
    cases s.autoPushed with
    | true => simp [frame]
    | false =>
      simp only [Bool.false_eq_true,if_false]
      split
      · rfl
      · rw [join_frame,join_appConf]
        simp only [Option.map_some]
        unfold Session.frame addressed at frame ⊢
        simp only [Frame.mk.injEq] at frame ⊢
        simp [frame]

theorem connected_process (connected : s.connected = true) :
    (∃ ok, process cfg s (.command raw created sends) = .done t ok) ↔
      (chain cfg s .call (.command raw created sends)).session = some t := by
  unfold process
  rw [chain_call]
  cases arrived : chain cfg s .call (.command raw created sends) with
  | done u ok => simp [Outcome.andThen,Outcome.session]
  | crash => simp [Outcome.andThen,Outcome.session]
  | call u v =>
    have busy : u.connected = true := (chain_frame (congrArg Outcome.session arrived)).1.trans connected
    simp [Outcome.andThen,Outcome.session,cmdConnect,busy]

theorem duplicate_connect_iff (cfg : Config) (s : Session) (raw : Command) (created sends : Bool) (connected : s.connected = true) :
    (∃ t ok, process cfg s (.command raw created sends) = .done t ok ∧ t.queued = s.queued ∧ t.frame = s.frame) ↔
      Repeats cfg s raw.filled := by
  obtain ⟨pending,result⟩ := command_session
  have frames := before_written cfg s raw.filled
  have reached : (∃ t ok, process cfg s (.command raw created sends) = .done t ok ∧ t.queued = s.queued ∧ t.frame = s.frame) ↔
      (before cfg s raw.filled).map Session.frame = some s.frame := by
    constructor
    · rintro ⟨t,ok,done,_,frame⟩
      have ended := (connected_process connected).mp ⟨ok,done⟩
      rw [result] at ended
      obtain ⟨u,prepared,rfl⟩ := Option.map_eq_some_iff.mp ended
      rw [prepared]
      exact congrArg some frame
    · intro frame
      obtain ⟨u,prepared,frame⟩ := Option.map_eq_some_iff.mp frame
      rw [prepared] at result
      obtain ⟨ok,done⟩ := (connected_process connected).mpr result
      exact ⟨_,ok,done,(before_frame prepared).2,frame⟩
  rw [reached,frames]
  constructor
  · intro same
    obtain ⟨conf,wrote,frame⟩ := Option.map_eq_some_iff.mp same
    unfold addressed Session.frame at frame
    simp only [Frame.mk.injEq] at frame
    obtain ⟨server,app,host,port,page⟩ := frame
    refine ⟨page,fun url parsed => ?_,?_⟩
    · rw [parsed] at host port
      exact ⟨host,port⟩
    · rw [wrote,←server,←app]
  · rintro ⟨page,url,conf⟩
    rw [conf]
    unfold addressed Session.frame
    simp only [Option.map_some,Option.some.injEq,Frame.mk.injEq,true_and,page,and_true]
    cases parsed : parseTcurl raw.filled.memory with
    | none => exact ⟨rfl,rfl⟩
    | some found => exact url found parsed

def otherServer : Server := ⟨3,[],[⟨4,live,[]⟩],[],false⟩

def pairConfig : Config :=
  ⟨[sampleServer,otherServer],sampleServer,some fun host =>
    if host = live then some sampleServer else if host = other then some otherServer else none⟩

def joinedSession : Session :=
  {freshSession sampleServer with connected:=true,appConf:=some (.application ⟨2,live,[]⟩),hostIn:=live}

theorem duplicate_connect_same :
    joinedSession.connected = true ∧ ∃ t ok, process pairConfig joinedSession (.command (connectTo live live) true true) = .done t ok ∧
      t.queued = joinedSession.queued ∧ t.frame = joinedSession.frame := by
  refine ⟨rfl,(duplicate_connect_iff pairConfig joinedSession (connectTo live live) true true rfl).mpr ⟨rfl,fun url parsed => ?_,rfl⟩⟩
  have here : parseTcurl (connectTo live live).filled.memory = some ⟨live,none⟩ := by decide +kernel
  cases here.symm.trans parsed
  exact ⟨rfl,rfl⟩

def AppConf.id : AppConf → Nat
  | .server s => s.id
  | .application a => a.id

-- The session is on the other server now, whose application the close handlers work on.
theorem duplicate_connect_moves :
    (match process pairConfig joinedSession (.command (connectTo other live) true true) with
      | .done s ok => some (ok,s.srvConf.id,s.appConf.map AppConf.id,s.hostIn)
      | _ => none) = some (false,3,some 4,other) ∧
    (joinedSession.srvConf.id,joinedSession.appConf.map AppConf.id,joinedSession.hostIn) = (1,some 2,live) := by
  refine ⟨by decide +kernel,rfl⟩

end NgxRtmp.Connect
