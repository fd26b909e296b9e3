import NgxRtmp.Lib.Runs

namespace NgxRtmp.Hls
open List

-- It calls the next one, returns NGX_ERROR, returns NGX_OK without going on, or asks over the network.
inductive Verdict where
  | next
  | error
  | stop
  | netcall
  deriving DecidableEq, Repr

abbrev Hook (σ : Type) := σ → Verdict

-- ngx_rtmp_notify_play with and without a URL, and ngx_rtmp_access_play.
def notifyPlay (url : Bool) : Hook σ := fun _ => if url then .netcall else .next
def accessPlay (denied : σ → Bool) : Hook σ := fun x => if denied x then .error else .next

-- `r` is the stream of s->r, and `pending` the rest of the play chain behind a netcall.
structure Session (σ : Type) where
  r : Option σ
  pending : Option (List (Hook σ) × σ)

-- A request that is not answered yet. `keepalived` says that its
-- keepalived_handler is set.
structure Request (σ : Type) where
  stream : σ
  keepalived : Bool

structure Connection (σ : Type) where
  session : Option (Session σ)
  request : Option (Request σ)
  closed : Bool
  played : List σ
  served : List σ

def Connection.initial : Connection σ := ⟨none,none,false,[],[]⟩

-- The file is there, there is nothing, or the publisher's server gets the request.
inductive Opened where
  | file
  | missing
  | relayed
  deriving DecidableEq, Repr

def Connection.finish (c : Connection σ) (s : Session σ) : Connection σ :=
  {c with session:=some {s with r:=if c.request.any (·.keepalived) then none else s.r},request:=none}

def authDone (opened : Opened) (c : Connection σ) (s : Session σ) : Connection σ :=
  match s.r with
  | none => {c with session:=some s}
  | some x =>
    match opened with
    | .file => {c.finish s with served:=c.served ++ [x]}
    | .missing => c.finish s
    | .relayed => {c with session:=some s}

-- ngx_rtmp_play from one function of the chain on; the flag is NGX_OK.
def play (opened : Opened) : List (Hook σ) → σ → Connection σ → Session σ → Connection σ × Bool
  | [],x,c,s => (authDone opened {c with played:=c.played ++ [x]} s,true)
  | hook::rest,x,c,s =>
    match hook x with
    | .next => play opened rest x c s
    | .error => ({c with session:=some s},false)
    | .stop => ({c with session:=some s},true)
    | .netcall => ({c with session:=some {s with pending:=some (rest,x)}},true)

-- With a session it fires NGX_RTMP_AUTH_DONE itself; without one it starts the play chain.
def httpHlsHandler (chain : List (Hook σ)) (opened : Opened) (x : σ) (c : Connection σ) : Connection σ :=
  match c.session with
  | some s => authDone opened {c with request:=some ⟨x,false⟩} {s with r:=some x}
  | none => (play opened chain x {c with request:=some ⟨x,true⟩} ⟨some x,none⟩).1

def Connection.close (c : Connection σ) : Connection σ := {c with session:=none,request:=none,closed:=true}

-- What the functions of the chain look at changes between requests.
inductive Event (σ : Type) where
  | request (chain : List (Hook σ)) (x : σ) (opened : Opened)
  | reply (allowed : Bool) (opened : Opened)
  | close

-- A reply that refuses, or after which the chain fails, finalizes the session.
def step (c : Connection σ) : Event σ → Connection σ
  | .request chain x opened => if c.closed || c.request.isSome then c else httpHlsHandler chain opened x c
  | .reply allowed opened =>
    match c.session with
    | none => c
    | some s =>
      match s.pending with
      | none => c
      | some (rest,x) =>
        if allowed then
          let (c,ok) := play opened rest x c {s with pending:=none}
          if ok then c else c.close
        else c.close
  | .close => c.close

-- Every file was sent after the play chain of its stream had succeeded.
def Authorized (c : Connection σ) : Prop := ∀ x ∈ c.served, x ∈ c.played

-- A request that finds a session is for a stream played before, or gets no file.
def covered (c : Connection σ) : Event σ → Prop
  | .request _ x .file => c.closed = false → c.request = none → c.session.isSome = true → x ∈ c.played
  | _ => True

structure Sound (c : Connection σ) : Prop where
  waiting : ∀ s rest x, c.session = some s → s.pending = some (rest,x) → s.r = some x ∧ c.request.isSome = true
  authorized : Authorized c

theorem sound_of_idle (idle : c.session.bind (·.pending) = none) (known : Authorized c) : Sound c := by
  refine ⟨fun s rest x held waits => ?_,known⟩
  rw [held] at idle
  cases waits.symm.trans idle

theorem authDone_sound {c : Connection σ} (idle : s.pending = none) (known : Authorized c)
    (allowed : opened = .file → ∀ x ∈ s.r, x ∈ c.played) : Sound (authDone opened c s) := by
  unfold authDone Connection.finish
  cases found : s.r with
  | none => exact sound_of_idle idle known
  | some x =>
    cases opened with
    | file =>
      refine sound_of_idle idle fun y sent => ?_
      rcases mem_append.mp sent with before | now
      · exact known y before
      · cases mem_singleton.mp now
        exact allowed rfl _ found
    | missing => exact sound_of_idle idle known
    | relayed => exact sound_of_idle idle known

theorem play_sound (opened : Opened) (chain : List (Hook σ)) {c : Connection σ} (idle : s.pending = none)
    (current : s.r = some x) (busy : c.request.isSome = true) (known : Authorized c) : Sound (play opened chain x c s).1 := by
  induction chain with
  | nil =>
    refine authDone_sound idle (fun y sent => mem_append_left _ (known y sent)) fun _ y here => ?_
    cases current.symm.trans here
    exact mem_append_right _ (mem_singleton_self x)
  | cons hook rest ih =>
    unfold play
    cases hook x with
    | next => exact ih
    | error | stop => exact sound_of_idle idle known
    | netcall =>
      refine ⟨fun t rest y held waits => ?_,known⟩
      cases held
      cases waits
      exact ⟨current,busy⟩

theorem close_sound (known : Authorized c) : Sound (Connection.close c) :=
  ⟨fun _ _ _ held => (nomatch held),known⟩

theorem step_sound (c : Connection σ) (event : Event σ) (allowed : covered c event) (sound : Sound c) : Sound (step c event) := by
  cases event with
  | request chain x opened =>
    simp only [step]
    split
    · exact sound
    · rename_i free
      simp only [Bool.or_eq_true,not_or,Bool.not_eq_true,Option.isSome_eq_false_iff,Option.isNone_iff_eq_none] at free
      unfold httpHlsHandler
      cases held : c.session with
      | some s =>
        have idle : s.pending = none := by
          cases waits : s.pending with
          | none => rfl
          | some rest =>
            have busy := (sound.waiting s rest.1 rest.2 held waits).2
            rw [free.2] at busy
            cases busy
        refine authDone_sound idle sound.authorized fun file y here => ?_
        cases here
        subst file
        exact allowed free.1 free.2 (by rw [held]; rfl)
      | none => exact play_sound opened chain rfl rfl rfl sound.authorized
  | reply allowed opened =>
    unfold step
    cases held : c.session with
    | none => exact sound
    | some s =>
      dsimp only
      cases waits : s.pending with
      | none => exact sound
      | some rest =>
        obtain ⟨rest,x⟩ := rest
        obtain ⟨current,busy⟩ := sound.waiting s rest x held waits
        have played := play_sound opened rest (s:={s with pending:=none}) rfl current busy sound.authorized
        dsimp only
        split
        · split
          · exact played
          · exact close_sound played.authorized
        · exact close_sound sound.authorized
  | close => exact close_sound sound.authorized

theorem step_seen (after : Authorized (step c event)) : covered c event := by
  cases event with
  | request chain x opened =>
    cases opened with
    | file =>
      intro live free started
      obtain ⟨s,held⟩ := Option.isSome_iff_exists.mp started
      have result : step c (.request chain x .file) =
          {Connection.finish {c with request:=some ⟨x,false⟩} {s with r:=some x} with served:=c.served ++ [x]} := by
        simp [step,httpHlsHandler,authDone,live,free,held]
      rw [result] at after
      exact after x (mem_append_right _ (mem_singleton_self x))
    | missing => trivial
    | relayed => trivial
  | reply allowed opened => trivial
  | close => trivial

theorem files_authorized_iff (events : List (Event σ)) :
    (∀ n, Authorized ((events.take n).foldl step .initial)) ↔ Runs.Along step covered .initial events :=
  Runs.along_exact step_sound (fun _ sound => sound.authorized) (fun _ _ _ => step_seen)
    ⟨fun _ _ _ held => (nomatch held),fun _ sent => (nomatch sent)⟩

-- Stream 1 may be played, stream 2 may not. A client plays 1 and asks for 2 on
-- the same connection.
def deniedTwo : List (Hook Nat) := [notifyPlay false,accessPlay (· == 2)]
def oneThenTwo : List (Event Nat) := [.request deniedTwo 1 .file,.request deniedTwo 2 .file]

theorem second_stream_served : (oneThenTwo.foldl step .initial).served = [1,2] ∧
    (oneThenTwo.foldl step .initial).played = [1] ∧ ([Event.request deniedTwo 2 .file].foldl step .initial).served = [] := by
  decide

end NgxRtmp.Hls
