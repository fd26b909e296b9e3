import NgxRtmp.Lib.Octets
import NgxRtmp.Lib.Segments

namespace NgxRtmp.Amf

open Octets Segments

abbrev Ctx := Cursor UInt8

-- The loop of ngx_rtmp_amf_get; nothing is NGX_DONE, which leaves the cursor.
def take : List (List UInt8) → Nat → Nat → Option (List UInt8 × Ctx)
  | [],_,_ => none
  | buf::more,offset,n =>
    if offset+n ≤ buf.length then some ((buf.drop offset).take n,⟨buf::more,offset+n⟩)
    else (take more 0 (n-(buf.length-offset))).map fun read => (buf.drop offset ++ read.1,read.2)

def get (ctx : Ctx) (n : Nat) : Option (List UInt8 × Ctx) :=
  if n = 0 then some ([],ctx) else take ctx.link ctx.offset n

-- The types of ngx_rtmp_amf.h, read off their numbers.
inductive Kind where
  | number
  | boolean
  | string
  | object
  | null
  | arrayNull
  | mixedArray
  | endMark
  | array
  | int8
  | int16
  | int32
  | variant
  | other
  deriving DecidableEq

def Kind.ofCode (code : Nat) : Kind :=
  if code = 0x00 then .number
  else if code = 0x01 then .boolean
  else if code = 0x02 then .string
  else if code = 0x03 then .object
  else if code = 0x05 then .null
  else if code = 0x06 then .arrayNull
  else if code = 0x08 then .mixedArray
  else if code = 0x09 then .endMark
  else if code = 0x0a then .array
  else if code = 0x100 then .int8
  else if code = 0x101 then .int16
  else if code = 0x102 then .int32
  else if code = 0x103 then .variant
  else .other

structure Tag where
  code : Nat
  optional : Bool
  typeless : Bool
  context : Bool
  deriving DecidableEq

def Tag.plain (code : Nat) : Tag := ⟨code,false,false,false⟩
def Tag.variant : Tag := ⟨0x103,false,true,false⟩

def Tag.kind (tag : Tag) : Kind := if tag.optional || tag.context then .other else .ofCode tag.code

-- ngx_rtmp_amf_elt_t. Its `data` is nothing, plain memory, elements or a saved context.
mutual
inductive Elt where
  | mk (type : Tag) (name : List UInt8) (data : Data) (len : Nat)
inductive Data where
  | null
  | memory (bytes : List UInt8)
  | elts (items : List Elt)
  | saved (ctx : Ctx)
end

def Elt.type : Elt → Tag
  | .mk type _ _ _ => type

def Elt.name : Elt → List UInt8
  | .mk _ name _ _ => name

def Elt.data : Elt → Data
  | .mk _ _ data _ => data

def Elt.len : Elt → Nat
  | .mk _ _ _ len => len

def Elt.store (e : Elt) (data : Data) : Elt := .mk e.type e.name data e.len

def Data.isNull : Data → Bool
  | .null => true
  | _ => false

def Data.write (bytes : List UInt8) : Data → Data
  | .memory old => .memory (bytes ++ old.drop bytes.length)
  | data => data

def Data.items : Data → List Elt
  | .elts items => items
  | _ => []

def Data.setItems (items : List Elt) : Data → Data
  | .elts _ => .elts items
  | data => data

-- At the end of the input an element without schema follows a null pointer. `starved` is a model's
-- own.
inductive Stop where
  | error
  | fault
  | starved
  deriving DecidableEq

abbrev Outcome (α : Type) := Except Stop (Ctx × α)

-- ngx_rtmp_amf_read for one element: what it filled in, and whether the loop goes on.
abbrev ReadOne := Ctx → Option Elt → Outcome (Option Elt × Bool)

def isCompatibleType (t u : Nat) : Bool := t == u || (t == 0x03 && u == 0x08) || (u == 0x03 && t == 0x08)

def cString (bytes : List UInt8) : List UInt8 := bytes.takeWhile (· != 0)

-- ngx_strncmp(name, data, len) == 0 for strings of at least `len` bytes.
def sameName (name data : List UInt8) (len : Nat) : Bool := cString (name.take len) == cString (data.take len)

def maxLen (elts : List Elt) : Nat := elts.foldl (fun max e => if e.name.length > max then e.name.length else max) 0

def getName (ctx : Ctx) (len maxlen : Nat) : Option (List UInt8 × Ctx) :=
  if len ≤ maxlen then get ctx len
  else
    match get ctx maxlen with
    | none => none
    | some (name,ctx) => (get ctx (len-maxlen)).map fun read => (name,read.2)

def lookup (elts : List Elt) (name : List UInt8) (len : Nat) : Nat :=
  elts.findIdx fun e => len == e.name.length && sameName name e.name len

def replace (elts : List Elt) (n : Nat) (entry : Option Elt) : List Elt :=
  match entry with
  | none => elts
  | some e => elts.set n e

def readObject (readOne : ReadOne) : Nat → Ctx → List Elt → Outcome (List Elt)
  | 0,_,_ => .error .starved
  | k+1,ctx,elts =>
    match get ctx 2 with
    | none => .ok (ctx,elts)
    | some (key,ctx) =>
      let len := natural key
      if len = 0 then
        match get ctx 1 with
        | none => .error .error
        | some (type,ctx) => if natural type = 0x09 then .ok (ctx,elts) else .error .error
      else
        match getName ctx len (maxLen elts) with
        | none => .error .error
        | some (name,ctx) =>
          let n := lookup elts name len
          match readOne ctx elts[n]? with
          | .error stop => .error stop
          | .ok (ctx,entry,_) => readObject readOne k ctx (replace elts n entry)

def readItems (readOne : ReadOne) : Nat → Nat → Ctx → List Elt → Outcome (List Elt)
  | 0,_,ctx,elts => .ok (ctx,elts)
  | left+1,n,ctx,elts =>
    match readOne ctx elts[n]? with
    | .error stop => .error stop
    | .ok (ctx,entry,_) => readItems readOne left (n+1) ctx (replace elts n entry)

def readArray (readOne : ReadOne) (ctx : Ctx) (elts : List Elt) : Outcome (List Elt) :=
  match get ctx 4 with
  | none => .error .error
  | some (count,ctx) => readItems readOne (natural count) 0 ctx elts

-- The last element of the variant's type wins.
def variantIndex (elts : List Elt) (type : Nat) : Option Nat :=
  ((List.range elts.length).filter fun n => (elts[n]?.map Elt.type) == some (.plain type)).getLast?

def readVariant (readOne : ReadOne) (ctx : Ctx) (elts : List Elt) : Outcome (List Elt) :=
  match get ctx 1 with
  | none => .error .error
  | some (type,ctx) =>
    let typeless : Tag := ⟨natural type,false,true,false⟩
    match (variantIndex elts (natural type)).bind fun n => elts[n]?.map fun e => (n,e) with
    | none =>
      match readOne ctx (some (.mk typeless [] .null 0)) with
      | .error stop => .error stop
      | .ok (ctx,_,_) => .ok (ctx,elts)
    | some (n,e) =>
      match readOne ctx (some (.mk typeless [] e.data e.len)) with
      | .error stop => .error stop
      | .ok (ctx,entry,_) => .ok (ctx,elts.set n (e.store ((entry.map Elt.data).getD e.data)))

def readNumber (ctx : Ctx) (size : Nat) (data : Data) : Outcome (Data × Bool) :=
  match get ctx size with
  | none => .error .error
  | some (bytes,ctx) => .ok (ctx,data.write bytes.reverse,true)

def readString (ctx : Ctx) (data : Data) (size : Nat) : Outcome (Data × Bool) :=
  match get ctx 2 with
  | none => .error .error
  | some (length,ctx) =>
    let len := natural length
    if data.isNull || size > len then
      match get ctx len with
      | none => .error .error
      | some (bytes,ctx) => .ok (ctx,data.write (bytes ++ [0]),true)
    else
      -- size - 1 is a size_t
      match get ctx ((size+(2^64-1)) % 2^64) with
      | none => .error .error
      | some (bytes,ctx) =>
        match get ctx (len-size+1) with
        | none => .error .error
        | some (_,ctx) => .ok (ctx,data.write (bytes ++ [0]),true)

def within (data : Data) : Outcome (List Elt) → Outcome (Data × Bool)
  | .error stop => .error stop
  | .ok (ctx,items) => .ok (ctx,data.setItems items,true)

-- The switch of ngx_rtmp_amf_read. `data` is where the value goes, and `size` the
-- len of its element.
def readValue (readOne : ReadOne) (ctx : Ctx) (data : Data) (size : Nat) : Kind → Outcome (Data × Bool)
  | .number => readNumber ctx 8 data
  | .boolean | .int8 => readNumber ctx 1 data
  | .int16 => readNumber ctx 2 data
  | .int32 => readNumber ctx 4 data
  | .string => readString ctx data size
  | .null | .arrayNull => .ok (ctx,data,true)
  | .mixedArray =>
    match get ctx 4 with
    | none => .error .error
    | some (_,ctx) => within data (readObject readOne (ctx.rest.length+1) ctx data.items)
  | .object => within data (readObject readOne (ctx.rest.length+1) ctx data.items)
  | .array => within data (readArray readOne ctx data.items)
  | .variant => within data (readVariant readOne ctx data.items)
  | .endMark => .ok (ctx,data,false)
  | .other => .error .error

def into (e : Elt) : Outcome (Data × Bool) → Outcome (Option Elt × Bool)
  | .error stop => .error stop
  | .ok (ctx,data,more) => .ok (ctx,some (e.store data),more)

def aside (entry : Option Elt) : Outcome (Data × Bool) → Outcome (Option Elt × Bool)
  | .error stop => .error stop
  | .ok (ctx,_,more) => .ok (ctx,entry,more)

def save (e : Elt) (ctx : Ctx) : Elt := if e.data.isNull then e else e.store (.saved ctx)

def readElt : Nat → ReadOne
  | 0,_,_ => .error .starved
  | depth+1,ctx,none =>
    match get ctx 1 with
    | none => .error .fault
    | some (type,ctx) => aside none (readValue (readElt depth) ctx .null 0 (.ofCode (natural type)))
  | depth+1,ctx,some e =>
    if e.type.typeless then into e (readValue (readElt depth) ctx e.data e.len e.type.kind)
    else
      match get ctx 1 with
      | none => if e.type.optional then .ok (ctx,some e,false) else .error .error
      | some (type,ctx) =>
        let kind := Kind.ofCode (natural type)
        if !isCompatibleType (e.type.code % 256) (natural type) then aside (some e) (readValue (readElt depth) ctx .null e.len kind)
        else if e.type.context then aside (some (save e ctx)) (readValue (readElt depth) ctx .null e.len kind)
        else into e (readValue (readElt depth) ctx e.data e.len kind)

-- No value is nested deeper than the input is long.
def read (ctx : Ctx) : List Elt → Outcome (List Elt)
  | [] => .ok (ctx,[])
  | e::rest =>
    match readElt (ctx.rest.length+1) ctx (some e) with
    | .error stop => .error stop
    | .ok (ctx,entry,more) =>
      if more then
        match read ctx rest with
        | .error stop => .error stop
        | .ok (ctx,rest) => .ok (ctx,entry.getD e::rest)
      else .ok (ctx,entry.getD e::rest)

structure Buf where
  bytes : List UInt8
  cap : Nat

structure Size where
  bytes : Nat
  positive : 0 < bytes

-- ngx_rtmp_amf_ctx_t of a writer: the chain in front of `link` and the buffer there.
structure Out where
  before : List Buf
  link : Option Buf
  allocated : Nat

def Out.empty : Out := ⟨[],none,0⟩

def Out.bytes (o : Out) : List UInt8 := (o.before.map Buf.bytes).flatten ++ (o.link.map Buf.bytes).getD []

abbrev Alloc := Nat → Option Size

def Buf.space (b : Buf) : Nat := b.cap-b.bytes.length
def Out.space (o : Out) : Nat := (o.link.map Buf.space).getD 0

def Out.append (o : Out) (p : List UInt8) : Out := {o with link:=o.link.map fun b => {b with bytes:=b.bytes ++ p}}

def room (alloc : Alloc) (o : Out) : Option Out :=
  if o.space = 0 then (alloc o.allocated).map fun size => ⟨o.before ++ o.link.toList,some ⟨[],size.bytes⟩,o.allocated+1⟩
  else some o

def put (alloc : Alloc) (o : Out) (p : List UInt8) : Option Out :=
  if p = [] then some o
  else
    match room alloc o with
    | none => none
    | some o =>
      if p.length ≤ o.space then some (o.append p)
      else if o.space = 0 then none
      else put alloc (o.append (p.take o.space)) (p.drop o.space)
termination_by p.length
decreasing_by
  simp only [List.length_drop]
  omega

def Data.bytes (n : Nat) : Data → List UInt8
  | .memory bytes => bytes.take n
  | _ => []

-- The len of a string that is written, a uint16_t: without one, that of a C string.
def stringLen (data : Data) (len : Nat) : Nat :=
  match data with
  | .memory bytes => if len % 65536 = 0 then (cString bytes).length % 65536 else len % 65536
  | _ => len % 65536

mutual
def writeElt (alloc : Alloc) (o : Out) : Elt → Option Out
  | .mk type _ data len =>
    match if type.typeless then some o else put alloc o [UInt8.ofNat type.code] with
    | none => none
    | some o =>
      match type.kind with
      | .number => put alloc o (data.bytes 8).reverse
      | .boolean | .int8 => put alloc o (data.bytes 1)
      | .int16 => put alloc o (data.bytes 2).reverse
      | .int32 => put alloc o (data.bytes 4).reverse
      | .string => (put alloc o (bigEndian 2 (stringLen data len))).bind (put alloc · (data.bytes (stringLen data len)))
      | .null | .arrayNull => some o
      | .mixedArray =>
        match put alloc o [0,0,0,0] with
        | none => none
        | some o =>
          match data with
          | .elts items => (writeObject alloc o items).bind (put alloc · [0x09])
          | _ => (put alloc o [0,0]).bind (put alloc · [0x09])
      | .object =>
        match data with
        | .elts items => (writeObject alloc o items).bind (put alloc · [0x09])
        | _ => (put alloc o [0,0]).bind (put alloc · [0x09])
      | .array =>
        match data with
        | .elts items =>
          match put alloc o (bigEndian 4 items.length) with
          | none => none
          | some o => write alloc o items
        | _ => put alloc o (bigEndian 4 0)
      | .endMark | .variant | .other => none
def writeObject (alloc : Alloc) (o : Out) : List Elt → Option Out
  | [] => put alloc o [0,0]
  | e::rest =>
    match put alloc o (bigEndian 2 e.name.length) with
    | none => none
    | some o =>
      match put alloc o (e.name.take (e.name.length % 65536)) with
      | none => none
      | some o =>
        match writeElt alloc o e with
        | none => none
        | some o => writeObject alloc o rest
def write (alloc : Alloc) (o : Out) : List Elt → Option Out
  | [] => some o
  | e::rest =>
    match writeElt alloc o e with
    | none => none
    | some o => write alloc o rest
end

end NgxRtmp.Amf
