import NgxRtmp.Connect

namespace NgxRtmp.Connect
open Search ServerNames

def Outcome.andThen (next : Session → Command → Outcome) : Outcome → Outcome
  | .call s v => next s v
  | other => other

theorem connectInit_call (cfg : Config) (next : Session → Command → Outcome) (s : Session) (v : Command) :
    connectInit cfg next s v = (connectInit cfg .call s v).andThen next := by
  unfold connectInit
  cases prepare cfg s v.filled <;> rfl

theorem vhostConnect_call (next : Session → Command → Outcome) (s : Session) (v : Command) :
    vhostConnect next s v = (vhostConnect .call s v).andThen next := by
  unfold vhostConnect
  cases s.autoPushed with
  | true => rfl
  | false =>
    simp only [Bool.false_eq_true,if_false]
    generalize s.join v.app = t
    cases t.appConf with
    | none => rfl
    | some conf =>
      dsimp only
      cases vhostCheck conf.vhost v <;> rfl

theorem notifyConnect_call (created : Bool) (next : Session → Command → Outcome) (s : Session) (v : Command) :
    notifyConnect created next s v = (notifyConnect created .call s v).andThen next := by
  unfold notifyConnect
  split
  · rfl
  · split <;> rfl

theorem andThen_congr {o : Outcome} (same : ∀ s v, f s v = (g s v).andThen next) : o.andThen f = (o.andThen g).andThen next := by
  cases o with
  | call s v => exact same s v
  | done _ _ => rfl
  | crash => rfl

theorem chain_call : chain cfg s next event = (chain cfg s .call event).andThen next := by
  cases event with
  | command v created sends =>
    simp only [chain]
    rw [connectInit_call cfg (vhostConnect _),connectInit_call cfg (vhostConnect (notifyConnect created .call))]
    refine andThen_congr fun t w => ?_
    rw [vhostConnect_call,vhostConnect_call (notifyConnect created .call)]
    exact andThen_congr fun t w => notifyConnect_call created next t w
  | malformed => rfl
  | response i reply sends =>
    simp only [chain]
    cases s.pending[i]? with
    | none => rfl
    | some v => cases reply <;> rfl

def Outcome.session : Outcome → Option Session
  | .done s _ => some s
  | .call s _ => some s
  | .crash => none

def faults (s : Session) (v : Command) : Bool := (s.join v.app).appConf.any fun conf => vhostCheck conf.vhost v = .fault

theorem vhostConnect_session (s : Session) (v : Command) : (vhostConnect .call s v).session =
    if s.autoPushed then some s else if faults s v then none else some (s.join v.app) := by
  unfold vhostConnect faults
  cases s.autoPushed with
  | true => rfl
  | false =>
    simp only [Bool.false_eq_true,if_false]
    generalize s.join v.app = t
    cases t.appConf with
    | none => rfl
    | some conf =>
      cases check : vhostCheck conf.vhost v <;> simp [check,Outcome.session]

theorem notifyConnect_session : ∃ pending, (notifyConnect created .call s v).session = some {s with pending} := by
  unfold notifyConnect
  split
  · exact ⟨_,rfl⟩
  · split
    · exact ⟨_,rfl⟩
    · exact ⟨_,rfl⟩

def before (cfg : Config) (s : Session) (v : Command) : Option Session :=
  (prepare cfg s v).bind fun u => if u.autoPushed then some u else if faults u v then none else some (u.join v.app)

theorem command_session :
    ∃ pending, (chain cfg s .call (.command raw created sends)).session =
      (before cfg s raw.filled).map fun u => {u with pending} := by
  simp only [chain,connectInit,before]
  cases prepare cfg s raw.filled with
  | none => exact ⟨[],rfl⟩
  | some u =>
    have middle := vhostConnect_session u raw.filled
    simp only [Option.bind_some]
    rw [vhostConnect_call,←middle]
    cases vhostConnect .call u raw.filled with
    | crash => exact ⟨[],rfl⟩
    | done t ok => exact ⟨t.pending,rfl⟩
    | call t w => exact notifyConnect_session

theorem join_appConf {s : Session} :
    (s.join app).appConf = ((findApplication s.srvConf app).map AppConf.application).or s.appConf := by
  unfold Session.join
  cases findApplication s.srvConf app <;> rfl

theorem join_frame {s : Session} : s.join app = {s with appConf:=(s.join app).appConf} := by
  unfold Session.join
  cases findApplication s.srvConf app <;> rfl

theorem setVirtualServer_frame (done : setVirtualServer cfg s v = some t) :
    ∃ srvConf appConf destroyed, t = {s with srvConf,appConf,destroyed} := by
  unfold setVirtualServer at done
  cases chosen : select cfg s.hostIn v.flashver with
  | fault => simp [chosen] at done
  | ok server | declined | error =>
    simp only [chosen,Option.some.injEq] at done
    exact ⟨_,_,_,done.symm⟩

theorem prepare_frame (done : prepare cfg s v = some t) : ∃ srvConf appConf hostIn portIn pageUrl destroyed,
    t = {s with srvConf,appConf,hostIn,portIn,pageUrl,destroyed} := by
  unfold prepare at done
  cases parsed : parseTcurl v.memory with
  | none =>
    simp only [parsed,Option.some.injEq] at done
    exact ⟨_,_,_,_,_,_,done.symm⟩
  | some url =>
    simp only [parsed] at done
    obtain ⟨srvConf,appConf,destroyed,rfl⟩ := setVirtualServer_frame done
    exact ⟨_,_,_,_,_,_,rfl⟩

theorem before_frame (done : before cfg s v = some t) : t.connected = s.connected ∧ t.queued = s.queued := by
  unfold before at done
  obtain ⟨u,prepared,rest⟩ := Option.bind_eq_some_iff.mp done
  obtain ⟨srvConf,appConf,hostIn,portIn,pageUrl,destroyed,rfl⟩ := prepare_frame prepared
  split at rest
  · cases rest
    exact ⟨rfl,rfl⟩
  · split at rest
    · cases rest
    · cases rest
      rw [join_frame]
      exact ⟨rfl,rfl⟩

theorem chain_frame (ended : (chain cfg s .call event).session = some t) : t.connected = s.connected ∧ t.queued = s.queued := by
  cases event with
  | command raw created sends =>
    obtain ⟨pending,result⟩ := command_session
    rw [result] at ended
    obtain ⟨u,prepared,rfl⟩ := Option.map_eq_some_iff.mp ended
    obtain ⟨connected,queued⟩ := before_frame prepared
    exact ⟨connected,queued⟩
  | malformed =>
    cases ended
    exact ⟨rfl,rfl⟩
  | response i reply sends =>
    simp only [chain] at ended
    cases found : s.pending[i]? with
    | none =>
      simp only [found,Outcome.session,Option.some.injEq] at ended
      exact ended ▸ ⟨rfl,rfl⟩
    | some v =>
      cases reply with
      | allow | redirect _ | deny =>
        simp only [found,Outcome.session,Option.some.injEq] at ended
        exact ended ▸ ⟨rfl,rfl⟩

def joins (s : Session) (v : Command) : Option AppConf :=
  ((findApplication s.srvConf (fillArgs v.app).1).map AppConf.application).or s.appConf

-- Without a host, and for an address without names, it is the default server.
def chosen (cfg : Config) (v : Command) : Option Server :=
  match parseTcurl v.memory with
  | none => some cfg.default
  | some url =>
    match select cfg url.host v.flashver with
    | .ok server => some server
    | .declined => some cfg.default
    | _ => none

def live : List UInt8 := [108,105,118,101]
def other : List UInt8 := [111,116,104,101,114]
def scheme : List UInt8 := [114,116,109,112,58,47,47]

def sampleServer : Server := ⟨1,[],[⟨2,live,[]⟩],[],false⟩

def sampleConfig : Config := ⟨[sampleServer],sampleServer,some fun host => if host = live then some sampleServer else none⟩

def freshSession (server : Server) : Session :=
  ⟨false,server,none,[],[],[],[],[],[],[],[],0,0,0,false,false,false,[],[]⟩

def connectTo (host app : List UInt8) : Command := ⟨1,app,[],[],[],scheme ++ host ++ 47::app,[],0,0,[],0,0⟩

end NgxRtmp.Connect
