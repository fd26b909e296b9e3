import NgxRtmp.HlsConversion

namespace NgxRtmp.HlsVideo
open List hiding after count length next
open Octets Segments

def Outcome.code : Outcome → Code
  | .leave code _ => code
  | .write .. => .ok

-- How full the conversion buffer is, from the sizes of the units alone.
structure Filling where
  used : Nat
  audSent : Bool
  spsPpsSent : Bool
  deriving DecidableEq

def Filling.delimited (f : Filling) (type : Nat) : Filling :=
  if f.audSent then f
  else if type = 1 ∨ type = 5 ∨ type = 6 then {f with used:=if f.used+6 > bufsize then f.used else f.used+6,audSent:=true}
  else f

def fillSets : List Nat → Nat → Bool × Nat
  | [],used => (true,used)
  | size::sizes,used =>
    if bufsize-used < 4 then (false,used)
    else if bufsize-(used+4) < size then (false,used+4)
    else fillSets sizes (used+4+size)

def Filling.parametrised (f : Filling) (sizes : List Nat) (type : Nat) : Filling :=
  if type = 1 then {f with spsPpsSent:=false}
  else if type = 5 then if f.spsPpsSent then f else {f with used:=(fillSets sizes f.used).2,spsPpsSent:=true}
  else f

def Filling.unit (sizes : List Nat) (f : Filling) (first : UInt8) (size : Nat) : Option Filling :=
  if 7 ≤ first.toNat%32 ∧ first.toNat%32 ≤ 9 then some f
  else
    let f := (f.delimited (first.toNat%32)).parametrised sizes (first.toNat%32)
    let used := f.used+(if f.used = 0 then 4 else 3)+1
    if bufsize-f.used < 5 ∨ bufsize-used < size then none else some {f with used:=used+(size-1)}

def fill (sizes : List Nat) : Filling → List (List UInt8) → Option Filling
  | f,[] => some f
  | f,[]::units => fill sizes f units
  | f,(first::body)::units => (f.unit sizes first (body.length+1)).bind (fill sizes · units)

def Config.sizes (c : Config) : List Nat := (c.sps ++ c.pps).map List.length

def Fits (config : Config) (units : List (List UInt8)) : Prop := (fill config.sizes ⟨0,false,false⟩ units).isSome

instance (config : Config) (units : List (List UInt8)) : Decidable (Fits config units) := inferInstanceAs (Decidable (_ = true))

structure Filled (f : Filling) (st : Conversion) : Prop where
  used : st.out.bytes.length = f.used
  aud : st.audSent = f.audSent
  sets : st.spsPpsSent = f.spsPpsSent

def Turn.code : Turn → Code
  | .goOn _ => .ok
  | .leave code _ => code

end NgxRtmp.HlsVideo
