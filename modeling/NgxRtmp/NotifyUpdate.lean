import NgxRtmp.Lib.Runs

namespace NgxRtmp.NotifyUpdate
open List

inductive Rc where
  | ok
  | again
  | error
  deriving DecidableEq

-- The code is the byte behind `n` others.
def parseHttpRetcode : Nat → List (List UInt8) → Rc
  | _,[] => .error
  | n,b::next =>
    if n < b.length then
      match b.getD n 0 with
      | 50 => .ok
      | 51 => .again
      | _ => .error
    else parseHttpRetcode (n-b.length) next

structure Conf where
  active : Bool
  url : Bool
  updateTimeout : Nat
  updateStrict : Bool
  updateFailIgnore : Nat

-- `timerSet` is that of ctx->update_evt; `destroyed` is set by ngx_rtmp_finalize_session.
structure Session where
  updateFailCnt : Nat
  timerSet : Bool
  destroyed : Bool
  deriving DecidableEq

def schedule (s : Session) : Rc × Session := (.ok,{s with updateFailCnt:=0,timerSet:=true})

-- The empty chain is the null pointer.
def updateHandle (conf : Conf) (response : List (List UInt8)) (s : Session) : Rc × Session :=
  if response = [] then (.ok,s)
  else
    let rc := parseHttpRetcode 9 response
    if conf.updateStrict = false ∧ rc = .error then
      if conf.updateFailIgnore ≤ s.updateFailCnt then (.error,s) else schedule {s with updateFailCnt:=s.updateFailCnt+1}
    else if conf.updateStrict = true ∧ rc ≠ .ok then (.error,s)
    else schedule s

def netcallClose (conf : Conf) (response : List (List UInt8)) (s : Session) : Session :=
  match updateHandle conf response s with
  | (.ok,s) => s
  | (_,s) => {s with destroyed:=true}

-- A call is not created, or it is closed with what it has received, within ngx_rtmp_netcall_create
-- or later.
inductive Outcome where
  | refused
  | closed (response : List (List UInt8)) (within : Bool)

-- ngx_rtmp_notify_update up to the end of its call
def update (conf : Conf) (s : Session) : Outcome → Session
  | .refused => (updateHandle conf [] s).2
  | .closed response within =>
    let s := netcallClose conf response s
    if within ∧ s.destroyed then (updateHandle conf [] s).2 else s

-- The calls of a session that is closed are detached.
def fire (conf : Conf) (s : Session) (outcome : Outcome) : Session :=
  if s.timerSet ∧ s.destroyed = false then update conf {s with timerSet:=false} outcome else s

inductive Role where
  | publishing
  | playing
  deriving DecidableEq

def notifyInit (conf : Conf) (role : Role) (s : Session) : Session :=
  if conf.active = false then s
  else if conf.url = false ∨ conf.updateTimeout = 0 then s
  else if role = .playing ∨ s.timerSet then s
  else {s with timerSet:=true}

def Conf.Periodic (conf : Conf) : Prop := conf.active = true ∧ conf.url = true ∧ conf.updateTimeout ≠ 0

def published (conf : Conf) : Session := notifyInit conf .publishing ⟨0,false,false⟩

def armed : Session := ⟨0,true,false⟩

theorem published_armed (periodic : conf.Periodic) : published conf = armed := by
  obtain ⟨active,url,timeout⟩ := periodic
  simp [published,notifyInit,active,url,timeout,armed]

def Session.Running (s : Session) : Prop := s.timerSet = true ∨ s.destroyed = true

-- A response has come when the timer was set off.
def Answered (s : Session) : Outcome → Prop
  | .refused => s.destroyed = true
  | .closed response _ => response = [] → s.destroyed = true

theorem netcallClose_running (some : response ≠ []) : (netcallClose conf response s).Running := by
  unfold netcallClose updateHandle
  rw [if_neg some]
  split
  · rename_i after handled
    dsimp only at handled
    split at handled
    · split at handled
      · cases handled
      · cases handled
        exact .inl rfl
    · split at handled
      · cases handled
      · cases handled
        exact .inl rfl
  · exact .inr rfl

theorem update_running_iff : (update conf s outcome).Running ↔ s.Running ∨ ∃ response within, outcome = .closed response within ∧ response ≠ [] := by
  cases outcome with
  | refused => simp [update,updateHandle]
  | closed response within =>
    have same : update conf s (.closed response within) = netcallClose conf response s := by simp [update,updateHandle]
    rw [same]
    by_cases none : response = []
    · simp [none,netcallClose,updateHandle]
    · exact ⟨fun _ => .inr ⟨response,within,rfl,none⟩,fun _ => netcallClose_running none⟩

theorem fire_running_iff (running : s.Running) : (fire conf s outcome).Running ↔ Answered s outcome := by
  cases closing : s.destroyed with
  | true =>
    have answered : Answered s outcome := by
      cases outcome with
      | refused => exact closing
      | closed _ _ => exact fun _ => closing
    simp only [fire,closing,Bool.true_eq_false,and_false,if_false]
    exact ⟨fun _ => answered,fun _ => running⟩
  | false =>
    have set : s.timerSet = true := running.resolve_right (by simp [closing])
    rw [fire,if_pos ⟨set,closing⟩,update_running_iff]
    cases outcome <;> simp [Session.Running,Answered,closing]

-- After each outcome, exactly when each of them is a response.
theorem updates_running_iff (conf : Conf) (periodic : conf.Periodic) (outcomes : List Outcome) :
    (∀ n, ((outcomes.take n).foldl (fire conf) (published conf)).Running) ↔
      Runs.Along (fire conf) Answered (published conf) outcomes := by
  refine Runs.along_exact (fun s outcome answered running => (fire_running_iff running).mpr answered) (fun _ running => running)
    (fun s outcome running after => (fire_running_iff running).mp after) ?_
  rw [published_armed periodic]
  exact .inl rfl

-- once a second, without a limit
def eachSecond (k : Nat) : Conf := ⟨true,true,1000,false,k⟩

def status (c : UInt8) : List (List UInt8) := [[72,84,84,80,47,49,46,49],[32,c,48,48]]

theorem updates_running_answered : (fire (eachSecond 0) (published (eachSecond 0)) (.closed (status 50) false)).Running :=
  (updates_running_iff (eachSecond 0) ⟨rfl,rfl,by decide⟩ [.closed (status 50) false]).mpr ⟨nofun,trivial⟩ 1

theorem updates_stop : ¬(fire (eachSecond 3) (published (eachSecond 3)) .refused).Running ∧
    ¬(fire (eachSecond 3) (published (eachSecond 3)) (.closed [] false)).Running := by
  constructor <;> exact fun running => running.elim nofun nofun

structure Response where
  bufs : List (List UInt8)
  within : Bool
  present : bufs ≠ []

def Response.failed (r : Response) : Bool := parseHttpRetcode 9 r.bufs = .error

def respond (conf : Conf) (responses : List Response) : Session :=
  responses.foldl (fun s r => fire conf s (.closed r.bufs r.within)) armed

-- The failures at the end
def failures (responses : List Response) : Nat := (responses.reverse.takeWhile Response.failed).length

section Lenient
variable {conf : Conf} (lenient : conf.updateStrict = false)
include lenient

theorem fire_armed (r : Response) :
    fire conf armed (.closed r.bufs r.within) = if conf.updateFailIgnore = 0 ∧ r.failed then ⟨0,false,true⟩ else armed := by
  have null (s : Session) : updateHandle conf [] s = (.ok,s) := rfl
  simp only [fire,armed,update,netcallClose,null,ite_self,and_self,if_true]
  unfold updateHandle
  rw [if_neg r.present]
  by_cases failed : parseHttpRetcode 9 r.bufs = .error
  · by_cases zero : conf.updateFailIgnore = 0
    · simp [lenient,failed,zero,Response.failed]
    · simp [lenient,failed,zero,Response.failed,schedule]
  · simp [lenient,failed,Response.failed,schedule]

theorem respond_destroyed_iff :
    (respond conf responses).destroyed = true ↔ conf.updateFailIgnore = 0 ∧ ∃ r ∈ responses, r.failed = true := by
  have closed : ∀ rs : List Response, rs.foldl (fun s r => fire conf s (.closed r.bufs r.within)) ⟨0,false,true⟩ = ⟨0,false,true⟩ := by
    intro rs
    induction rs with
    | nil => rfl
    | cons r rest ih => exact ih
  unfold respond
  induction responses with
  | nil => simp [armed]
  | cons r rest ih =>
    rw [foldl_cons,fire_armed lenient]
    by_cases drops : conf.updateFailIgnore = 0 ∧ r.failed = true
    · rw [if_pos drops,closed]
      exact ⟨fun _ => ⟨drops.1,r,mem_cons_self,drops.2⟩,fun _ => rfl⟩
    · rw [if_neg drops]
      refine ih.trans ?_
      grind

end Lenient

theorem failures_snoc : failures (front ++ [r]) = if r.failed then failures front+1 else 0 := by
  unfold failures
  rw [reverse_append,reverse_singleton,singleton_append,takeWhile_cons]
  split <;> rfl

theorem failures_positive : 0 < failures responses ↔ ∃ front r, responses = front ++ [r] ∧ r.failed = true := by
  rcases eq_nil_or_concat responses with rfl | ⟨front,r,rfl⟩
  · simp [failures]
  · rw [concat_eq_append,failures_snoc]
    constructor
    · intro positive
      split at positive
      · rename_i failed
        exact ⟨front,r,rfl,failed⟩
      · cases positive
    · rintro ⟨other,last,same,failed⟩
      cases (append_inj' same rfl).2
      rw [if_pos failed]
      exact Nat.succ_pos _

theorem failed_taken {responses : List Response} :
    (∃ m ≤ n, 0 < failures (responses.take m)) ↔ ∃ r ∈ responses.take n, r.failed = true := by
  constructor
  · rintro ⟨m,before,positive⟩
    obtain ⟨front,r,same,failed⟩ := failures_positive.mp positive
    refine ⟨r,(take_subset_take_left responses before) ?_,failed⟩
    rw [same]
    simp
  · rintro ⟨r,member,failed⟩
    obtain ⟨i,inside,rfl⟩ := mem_iff_getElem.mp member
    have bounds : i < n ∧ i < responses.length := by simpa [Nat.lt_min] using inside
    refine ⟨i+1,bounds.1,failures_positive.mpr ⟨responses.take i,_,take_succ_eq_append_getElem bounds.2,?_⟩⟩
    simpa using failed

-- The count of a failure is set back to zero at once.
theorem update_limit_iff (conf : Conf) (lenient : conf.updateStrict = false) (responses : List Response) :
    (∀ n, (respond conf (responses.take n)).destroyed = true ↔ ∃ m ≤ n, conf.updateFailIgnore < failures (responses.take m)) ↔
      conf.updateFailIgnore = 0 ∨ ∀ m, failures (responses.take m) ≤ conf.updateFailIgnore := by
  simp only [respond_destroyed_iff lenient]
  constructor
  · intro limited
    by_cases zero : conf.updateFailIgnore = 0
    · exact .inl zero
    · refine .inr fun m => Nat.le_of_not_lt fun more => ?_
      exact zero ((limited m).mpr ⟨m,le_rfl,more⟩).1
  · rintro (zero | few) n
    · rw [zero,failed_taken]
      simp
    · constructor
      · rintro ⟨zero,failed⟩
        obtain ⟨m,_,positive⟩ := failed_taken.mpr failed
        exact absurd (zero ▸ few m) (Nat.not_le_of_lt positive)
      · rintro ⟨m,_,more⟩
        exact absurd (few m) (Nat.not_le_of_lt more)

def answer (c : UInt8) : Response := ⟨status c,false,by simp [status]⟩

theorem update_limit_zero : (respond (eachSecond 0) [answer 53]).destroyed = true :=
  ((update_limit_iff (eachSecond 0) rfl [answer 53]).mpr (.inl rfl) 1).mpr ⟨1,le_rfl,by decide⟩

theorem limit_passed : failures [answer 53,answer 53] = 2 ∧
    respond (eachSecond 1) [answer 53,answer 53] = armed := by
  decide

end NgxRtmp.NotifyUpdate
