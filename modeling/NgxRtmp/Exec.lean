import NgxRtmp.LiveTable
import NgxRtmp.Lib.Counting

namespace NgxRtmp.Exec

open Cells
open LiveTable (Name)

-- ngx_rtmp_exec_pull_ctx_t; its `next` is the link of its cell.
structure Pull where
  name : Name
  counter : Nat
  pullExec : Nat

-- ngx_rtmp_exec_ctx_t. `made` is false for a session that has none yet.
structure Ctx where
  made : Bool
  pull : Option Nat
  pushExec : Nat

def Ctx.none : Ctx := ⟨false,.none,0⟩

-- The numbers of commands are those of eacf->conf[NGX_RTMP_EXEC_PULL] and
-- eacf->conf[NGX_RTMP_EXEC_PUSH].
structure Conf where
  hash : Name → Nat
  active : Bool
  pulls : Nat
  pushes : Nat

-- `pull` are the buckets of the table, `sessions` how many sessions there were.
structure Table where
  entries : Heap Pull
  pull : Nat → Option Nat
  contexts : Nat → Ctx
  sessions : Nat

def Table.initial : Table := ⟨⟨fun _ => ⟨⟨⟨[],LiveTable.nil_fits⟩,0,0⟩,none⟩,0⟩,fun _ => none,fun _ => .none,0⟩

def Table.entry (t : Table) (i : Nat) : Pull := t.entries.val i

def Table.count (t : Table) (i : Nat) (change : Nat → Nat) : Table :=
  {t with entries:=t.entries.setVal i {t.entry i with counter:=change (t.entry i).counter}}

def Table.setContext (t : Table) (a : Nat) (change : Ctx → Ctx) : Table :=
  {t with contexts:=Function.update t.contexts a (change (t.contexts a))}

inductive Command where
  | push (session n : Nat)
  | pull (entry n : Nat)
  deriving DecidableEq

def pushCommands (t : Table) (a : Nat) : List Command := (List.range (t.contexts a).pushExec).map (.push a)
def pullCommands (t : Table) (i : Nat) : List Command := (List.range (t.entry i).pullExec).map (.pull i)

-- Which allocations succeed: the context, the array of its push commands, and what
-- a new entry needs.
structure Alloc where
  ctx : Bool
  push : Bool
  pull : Bool

-- A context whose array could not be allocated stays, without push commands.
def initCtx (conf : Conf) (a : Nat) (alloc : Alloc) (t : Table) : Table × Bool :=
  if (t.contexts a).made then (t,true)
  else if !alloc.ctx then (t,false)
  else if conf.pushes = 0 then (t.setContext a ({· with made:=true}),true)
  else if alloc.push then (t.setContext a ({· with made:=true,pushExec:=conf.pushes}),true)
  else (t.setContext a ({· with made:=true}),false)

-- The walk of ngx_rtmp_exec_init_pull_ctx. Nothing is returned when it does not end.
def seekPull (conf : Conf) (t : Table) (name : Name) : Option (Slot × Option Nat) :=
  t.entries.seek (fun i => (t.entry i).name == name) t.entries.top none (t.pull (conf.hash name))

def createPull (conf : Conf) (name : Name) (slot : Slot) (t : Table) : Table :=
  let i := t.entries.top
  {t with entries:=(t.entries.alloc ⟨name,0,conf.pulls⟩).store slot (some i),
          pull:=Function.update t.pull (conf.hash name) (Slot.root slot (t.pull (conf.hash name)) (some i))}

def refer (a i : Nat) (t : Table) : Table := (t.setContext a ({· with pull:=some i})).count i (·+1)

def initPullCtx (conf : Conf) (a : Nat) (name : Name) (alloc : Alloc) (t : Table) : Option (Table × Bool) :=
  if (t.contexts a).pull.isSome then some (t,true)
  else if conf.pulls = 0 then some (t,true)
  else
    match seekPull conf t name with
    | none => none
    | some (_,some i) => some (refer a i t,true)
    | some (slot,none) => if alloc.pull then some (refer a t.entries.top (createPull conf name slot t),true) else some (t,false)

-- ngx_rtmp_exec_play and ngx_rtmp_exec_publish with the commands that they start.
def play (conf : Conf) (a : Nat) (name : Name) (alloc : Alloc) (t : Table) : Option (Table × List Command) :=
  if !conf.active then some (t,[])
  else
    match initCtx conf a alloc t with
    | (t,false) => some (t,[])
    | (t,true) =>
      match initPullCtx conf a name alloc t with
      | none => none
      | some (t,false) => some (t,[])
      | some (t,true) =>
        match (t.contexts a).pull with
        | none => some (t,[])
        | some i => some (t,if (t.entry i).counter = 1 then pullCommands t i else [])

def publish (conf : Conf) (a : Nat) (autoPushed : Bool) (alloc : Alloc) (t : Table) : Table × List Command :=
  if !conf.active || autoPushed then (t,[])
  else
    match initCtx conf a alloc t with
    | (t,false) => (t,[])
    | (t,true) => (t,pushCommands t a)

def unlink (conf : Conf) (i : Nat) (t : Table) : Option Table :=
  let bucket := conf.hash (t.entry i).name
  match t.entries.seek (· == i) t.entries.top none (t.pull bucket) with
  | none => none
  | some (_,none) => some t
  | some (slot,some _) =>
    some {t with entries:=t.entries.store slot (t.entries.next i),
                 pull:=Function.update t.pull bucket (Slot.root slot (t.pull bucket) (t.entries.next i))}

def closeStream (conf : Conf) (a : Nat) (t : Table) : Option (Table × List Command) :=
  match (t.contexts a).pull with
  | none => some (t,pushCommands t a)
  | some i =>
    let u := t.count i (·-1)
    if (u.entry i).counter = 0 then
      match unlink conf i u with
      | none => none
      | some u => some (u.setContext a ({· with pull:=none}),pushCommands t a ++ pullCommands t i)
    else some (u.setContext a ({· with pull:=none}),pushCommands t a)

inductive Event where
  | accept
  | publish (a : Nat) (autoPushed : Bool) (alloc : Alloc)
  | play (a : Nat) (name : Name) (alloc : Alloc)
  | close (a : Nat)

def handle (conf : Conf) (t : Table) : Event → Option (Table × List Command)
  | .accept => some ({t with sessions:=t.sessions+1},[])
  | .publish a autoPushed alloc => some (if a < t.sessions then publish conf a autoPushed alloc t else (t,[]))
  | .play a name alloc => if a < t.sessions then play conf a name alloc t else some (t,[])
  | .close a => if a < t.sessions then closeStream conf a t else some (t,[])

def step (conf : Conf) (state : Option Table) (event : Event) : Option Table := (state.bind (handle conf · event)).map Prod.fst

def InTable (t : Table) (i : Nat) : Prop := ∃ b xs, Seg t.entries (t.pull b) xs none ∧ i ∈ xs

def refers (contexts : Nat → Ctx) (i a : Nat) : Prop := (contexts a).pull = some i

instance (contexts : Nat → Ctx) (i : Nat) : DecidablePred (refers contexts i) := fun a =>
  inferInstanceAs (Decidable ((contexts a).pull = some i))

structure Sound (t : Table) : Prop where
  buckets : ∀ b, ∃ xs, Seg t.entries (t.pull b) xs none ∧ xs.Nodup
  names : ∀ i j, InTable t i → InTable t j → (t.entry i).name = (t.entry j).name → i = j
  counted : ∀ i, (t.entry i).counter = Nat.count (refers t.contexts i) t.sessions
  held : ∀ i, InTable t i ↔ 0 < (t.entry i).counter

end NgxRtmp.Exec
