import NgxRtmp.Lib.Runs

namespace NgxRtmp.Limit
open List Runs

-- A session between the unlock and the comparison, then as ngx_rtmp_init_session leaves it.
-- A session is lost when a DISCONNECT handler in front of ngx_rtmp_limit_disconnect failed.
inductive Phase where
  | counted (n : UInt32)
  | admitted
  | refused
  | lost
  deriving DecidableEq

-- What every worker has counted and not taken back, the last to take the lock first.
structure Zone where
  nconn : UInt32
  sessions : List Phase

-- ngx_rtmp_limit_connect up to the unlock, with max_connections set; it then decides by its
-- copy of the counter.
def limitConnect (z : Zone) : Zone := ⟨z.nconn+1,.counted (z.nconn+1)::z.sessions⟩

def limitDecide (maxConn : Nat) (n : UInt32) : Phase := if maxConn < n.toNat then .refused else .admitted

def limitDisconnect (z : Zone) (i : Nat) : Zone := ⟨z.nconn-1,z.sessions.eraseIdx i⟩

inductive Event where
  | connect
  | decide (i : Nat)
  | close (i : Nat) (reached : Bool)

-- A refused session is closed like any other. ngx_rtmp_fire_event ends at the first
-- handler that fails, and its caller goes on.
def step (maxConn : Nat) (z : Zone) : Event → Zone
  | .connect => limitConnect z
  | .decide i =>
    match z.sessions[i]? with
    | some (.counted n) => {z with sessions:=z.sessions.set i (limitDecide maxConn n)}
    | _ => z
  | .close i reached =>
    if z.sessions[i]? = some .admitted ∨ z.sessions[i]? = some .refused then
      if reached then limitDisconnect z i else {z with sessions:=z.sessions.set i .lost}
    else z

def run (maxConn : Nat) (events : List Event) : Zone := events.foldl (step maxConn) ⟨0,[]⟩

def Phase.Fits (maxConn n : Nat) : Phase → Prop
  | .counted copy => n ≤ copy.toNat
  | .admitted => n ≤ maxConn
  | .refused | .lost => True

-- A session has been or will be compared with no less than itself and the older ones left.
def Fair (maxConn : Nat) : List Phase → Prop
  | [] => True
  | p::older => p.Fits maxConn (older.length+1) ∧ Fair maxConn older

theorem Phase.Fits.mono {p : Phase} (fits : p.Fits maxConn m) (le : n ≤ m) : p.Fits maxConn n := by
  cases p with
  | counted _ | admitted => exact le.trans fits
  | refused | lost => trivial

theorem set_fair (fair : Fair maxConn sessions) (found : sessions[i]? = some old) (fits : ∀ n, old.Fits maxConn n → new.Fits maxConn n) :
    Fair maxConn (sessions.set i new) := by
  induction sessions generalizing i with
  | nil => cases found
  | cons p older ih =>
    cases i with
    | zero =>
      cases found
      exact ⟨fits _ fair.1,fair.2⟩
    | succ i => exact ⟨fair.1.mono (by rw [length_set]),ih fair.2 found⟩

theorem erase_fair (fair : Fair maxConn sessions) (i : Nat) : Fair maxConn (sessions.eraseIdx i) := by
  induction sessions generalizing i with
  | nil => trivial
  | cons p older ih =>
    cases i with
    | zero => exact fair.2
    | succ i => exact ⟨fair.1.mono (Nat.succ_le_succ (eraseIdx_sublist ..).length_le),ih fair.2 i⟩

def Counted (maxConn : Nat) (z : Zone) : Prop := z.nconn.toNat = z.sessions.length ∧ Fair maxConn z.sessions

theorem set_counted (counted : Counted maxConn z) (found : z.sessions[i]? = some old)
    (fits : ∀ n, old.Fits maxConn n → new.Fits maxConn n) : Counted maxConn {z with sessions:=z.sessions.set i new} :=
  ⟨counted.1.trans length_set.symm,set_fair counted.2 found fits⟩

theorem limitDisconnect_counted (counted : Counted maxConn z) (inside : i < z.sessions.length) :
    Counted maxConn (limitDisconnect z i) := by
  have positive : (1 : UInt32).toNat ≤ z.nconn.toNat := by
    rw [counted.1]
    exact Nat.one_le_of_lt inside
  refine ⟨?_,erase_fair counted.2 i⟩
  rw [limitDisconnect,UInt32.toNat_sub_of_le _ _ (UInt32.le_iff_toNat_le.mpr positive),length_eraseIdx_of_lt inside,counted.1]
  rfl

theorem step_counted (z : Zone) (event : Event) (few : z.sessions.length+1 < 2^32) (counted : Counted maxConn z) :
    Counted maxConn (step maxConn z event) := by
  cases event with
  | connect =>
    have next : (z.nconn+1).toNat = z.sessions.length+1 := by
      rw [UInt32.toNat_add,counted.1]
      exact Nat.mod_eq_of_lt few
    exact ⟨next,next.ge,counted.2⟩
  | decide i =>
    simp only [step,limitDecide]
    split
    · rename_i found
      split
      · exact set_counted counted found fun _ _ => trivial
      · exact set_counted counted found fun _ fits => le_trans fits (not_lt.mp ‹_›)
    · exact counted
  | close i reached =>
    simp only [step]
    split
    · rename_i idle
      obtain ⟨old,found⟩ : ∃ old, z.sessions[i]? = some old := idle.elim (⟨_,·⟩) (⟨_,·⟩)
      split
      · exact limitDisconnect_counted counted (List.getElem?_eq_some_iff.mp found).1
      · exact set_counted counted found fun _ _ => trivial
    · exact counted

-- The last one admitted was compared with all of them.
theorem admitted_le (fair : Fair maxConn sessions) : sessions.count .admitted ≤ maxConn := by
  induction sessions with
  | nil => exact Nat.zero_le _
  | cons p older ih =>
    by_cases last : p = .admitted
    · subst last
      exact count_le_length.trans fair.1
    · rw [count_cons_of_ne last]
      exact ih fair.2

-- However the workers interleave.
theorem run_admits (maxConn : Nat) (events : List Event)
    (few : Along (step maxConn) (fun z _ => z.sessions.length+1 < 2^32) ⟨0,[]⟩ events) :
    (run maxConn events).nconn.toNat = (run maxConn events).sessions.length ∧
    (run maxConn events).sessions.count .admitted ≤ maxConn := by
  have counted : Counted maxConn (run maxConn events) := run_invariant step_counted ⟨rfl,trivial⟩ few
  exact ⟨counted.1,admitted_le counted.2⟩

-- The second session decides first.
def race : List Event := [.connect,.connect,.decide 0,.decide 1]

theorem run_admits_race :
    (run 1 race).nconn.toNat = (run 1 race).sessions.length ∧ (run 1 race).sessions.count .admitted ≤ 1 :=
  run_admits 1 race ⟨by decide,by decide,by decide,by decide,trivial⟩

end NgxRtmp.Limit
