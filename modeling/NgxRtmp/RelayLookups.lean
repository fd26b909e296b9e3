import NgxRtmp.RelayTable
import NgxRtmp.ServerNames

namespace NgxRtmp.Relay

open Cells Search

-- The bytes at a text: the text, and behind it whatever lies there.
def memory (text : List UInt8) (after : Nat → UInt8) (i : Nat) : UInt8 := text[i]?.getD (after (i-text.length))

-- ngx_rtmp_relay_copy_str copies without an end, and leaves NULL where there is nothing.
def nameStr (after : Nat → Nat → UInt8) (r : Table) (e : Nat) : ServerNames.Str :=
  ⟨if (r.heap.val e).name = [] then none else some (memory (r.heap.val e).name (after e)),(r.heap.val e).name.length⟩

-- One of the five loops, from a context on. Nothing is returned when it does not end.
def walk (r : Table) (test : Nat → Hit Unit) : Nat → Option Nat → Option (Hit Nat)
  | _,none => some .miss
  | 0,some _ => none
  | fuel+1,some c =>
    match test c with
    | .hit _ => some (.hit c)
    | .fault => some .fault
    | .miss => walk r test fuel (r.heap.next c)

def walkBucket (hash : List UInt8 → Nat) (r : Table) (name : List UInt8) (test : Nat → Hit Unit) : Option (Hit Nat) :=
  walk r test r.heap.top (r.ctx (hash name))

def sameName (r : Table) (name : List UInt8) (c : Nat) : Hit Unit := if (r.heap.val c).name == name then .hit () else .miss

-- ngx_strncmp(name, ctx->name.data, ctx->name.len), with a C string in front
def beginsName (r : Table) (name : List UInt8) (c : Nat) : Hit Unit :=
  if ServerNames.compare id (r.heap.val c).name (memory name fun _ => 0) then .hit () else .miss

def getPublish (hash : List UInt8 → Nat) (r : Table) (name : List UInt8) : Option (Hit Nat) :=
  (walkBucket hash r name (beginsName r name)).map fun
    | .hit c => .answer (r.heap.val c).publish
    | result => result

def relaying (hash : List UInt8 → Nat) (after : Nat → Nat → UInt8) (r : Table) (name : List UInt8) : Option (Hit Nat) :=
  walkBucket hash r name fun c => ServerNames.ngxStrncmp name (nameStr after r c)

inductive Lookup where
  | create
  | getPublish
  | relaying
  | playerDry
  | playerNew

section Walks

variable {hash : List UInt8 → Nat} {r : Table} {own : Nat → List Nat} {name : List UInt8}

end Walks

end NgxRtmp.Relay
