import NgxRtmp.Amf

namespace NgxRtmp.Amf

open Octets Segments List

-- A number is the eight bytes of a double; the index of a mixed array is read by no one.
inductive Value where
  | number (image : List UInt8)
  | boolean (byte : UInt8)
  | string (bytes : List UInt8)
  | null
  | undefined
  | object (fields : List (List UInt8 × Value))
  | mixedArray (index : List UInt8) (fields : List (List UInt8 × Value))
  | array (items : List Value)

def Value.code : Value → Nat
  | .number _ => 0x00
  | .boolean _ => 0x01
  | .string _ => 0x02
  | .object _ => 0x03
  | .null => 0x05
  | .undefined => 0x06
  | .mixedArray _ _ => 0x08
  | .array _ => 0x0a

mutual
def Value.body : Value → List UInt8
  | .number image => image.reverse
  | .boolean byte => [byte]
  | .string bytes => bigEndian 2 bytes.length ++ bytes
  | .null => []
  | .undefined => []
  | .object fields => encodeFields fields ++ [0,0,0x09]
  | .mixedArray index fields => index ++ (encodeFields fields ++ [0,0,0x09])
  | .array items => bigEndian 4 items.length ++ encodeItems items
def encodeFields : List (List UInt8 × Value) → List UInt8
  | [] => []
  | (name,v)::rest => bigEndian 2 name.length ++ (name ++ (UInt8.ofNat v.code::v.body ++ encodeFields rest))
def encodeItems : List Value → List UInt8
  | [] => []
  | v::rest => UInt8.ofNat v.code::v.body ++ encodeItems rest
end

def Value.encode (v : Value) : List UInt8 := UInt8.ofNat v.code::v.body

inductive Value.Wf : Value → Prop
  | number (size : image.length = 8) : Wf (.number image)
  | boolean : Wf (.boolean byte)
  | string (short : bytes.length < 65536) : Wf (.string bytes)
  | null : Wf .null
  | undefined : Wf .undefined
  | object (names : ∀ f ∈ fields, f.1 ≠ [] ∧ f.1.length < 65536) (values : ∀ f ∈ fields, Wf f.2) : Wf (.object fields)
  | mixedArray (size : index.length = 4) (names : ∀ f ∈ fields, f.1 ≠ [] ∧ f.1.length < 65536) (values : ∀ f ∈ fields, Wf f.2) :
      Wf (.mixedArray index fields)
  | array (short : items.length < 2^32) (values : ∀ v ∈ items, Wf v) : Wf (.array items)

-- Field names that are C strings, none twice in an object.
def Names (names : List (List UInt8)) : Prop := names.Nodup ∧ ∀ name ∈ names, 0 ∉ name

inductive Value.Named : Value → Prop
  | number : Named (.number image)
  | boolean : Named (.boolean byte)
  | string : Named (.string bytes)
  | null : Named .null
  | undefined : Named .undefined
  | object (names : Names (fields.map Prod.fst)) (values : ∀ f ∈ fields, Named f.2) : Named (.object fields)
  | mixedArray (names : Names (fields.map Prod.fst)) (values : ∀ f ∈ fields, Named f.2) : Named (.mixedArray index fields)
  | array (values : ∀ v ∈ items, Named v) : Named (.array items)

-- It reads the marker itself or is a variant, and its string buffer has a byte for the NUL.
inductive Admissible : Elt → Prop
  | mk (type : e.type.typeless = false ∨ e.type = .variant)
      (buffer : e.type.code % 256 = 0x02 → e.data.isNull = false → 0 < e.len)
      (items : ∀ x ∈ e.data.items, Admissible x) : Admissible e

def Asks (v : Value) (tag : Tag) : Prop := tag.code = v.code ∧ tag.typeless = false ∧ tag.context = false

-- A place of the same shape as the value, with room for it.
inductive Fits : Value → Data → Nat → Prop
  | number (room : 8 ≤ bytes.length) : Fits (.number image) (.memory bytes) size
  | boolean (room : 1 ≤ bytes.length) : Fits (.boolean byte) (.memory bytes) size
  | string (larger : text.length < size) (room : size ≤ bytes.length) : Fits (.string text) (.memory bytes) size
  | null (plain : data.items = []) : Fits .null data size
  | undefined (plain : data.items = []) : Fits .undefined data size
  | object (same : items.map Elt.name = fields.map Prod.fst) (asks : ∀ (i : Nat) f x, fields[i]? = some f → items[i]? = some x → Asks f.2 x.type)
      (each : ∀ (i : Nat) f x, fields[i]? = some f → items[i]? = some x → Fits f.2 x.data x.len) : Fits (.object fields) (.elts items) size
  | mixedArray (same : items.map Elt.name = fields.map Prod.fst)
      (asks : ∀ (i : Nat) f x, fields[i]? = some f → items[i]? = some x → Asks f.2 x.type)
      (each : ∀ (i : Nat) f x, fields[i]? = some f → items[i]? = some x → Fits f.2 x.data x.len) :
      Fits (.mixedArray index fields) (.elts items) size
  | array (same : items.length = values.length) (asks : ∀ (i : Nat) v x, values[i]? = some v → items[i]? = some x → Asks v x.type)
      (each : ∀ (i : Nat) v x, values[i]? = some v → items[i]? = some x → Fits v x.data x.len) : Fits (.array values) (.elts items) size

inductive Holds : Value → Data → Prop
  | number : Holds (.number image) (.memory (image ++ more))
  | boolean : Holds (.boolean byte) (.memory (byte::more))
  | string : Holds (.string text) (.memory (text ++ 0::more))
  | null : Holds .null data
  | undefined : Holds .undefined data
  | object (same : items.map Elt.name = fields.map Prod.fst)
      (each : ∀ (i : Nat) f x, fields[i]? = some f → items[i]? = some x → Holds f.2 x.data) : Holds (.object fields) (.elts items)
  | mixedArray (same : items.map Elt.name = fields.map Prod.fst)
      (each : ∀ (i : Nat) f x, fields[i]? = some f → items[i]? = some x → Holds f.2 x.data) :
      Holds (.mixedArray index fields) (.elts items)
  | array (same : items.length = values.length) (each : ∀ (i : Nat) v x, values[i]? = some v → items[i]? = some x → Holds v x.data) :
      Holds (.array values) (.elts items)

theorem Value.code_small (v : Value) : v.code < 256 := by
  cases v <;> simp [Value.code]

theorem natural_code {v : Value} : natural [UInt8.ofNat v.code] = v.code := by
  simp [natural,Nat.mod_eq_of_lt v.code_small]

theorem encode_length (v : Value) : v.encode.length = v.body.length+1 := rfl

theorem encodeFields_cons (name : List UInt8) (v : Value) (rest : List (List UInt8 × Value)) :
    encodeFields ((name,v)::rest) = bigEndian 2 name.length ++ (name ++ (v.encode ++ encodeFields rest)) := by
  rw [encodeFields,Value.encode]

theorem encodeItems_cons (v : Value) (rest : List Value) : encodeItems (v::rest) = v.encode ++ encodeItems rest := by
  rw [encodeItems,Value.encode]

def skip (ctx : Ctx) (n : Nat) : Ctx := ((get ctx n).map Prod.snd).getD ctx

theorem take_rest (link : List (List UInt8)) (offset n : Nat) (enough : n ≤ (⟨link,offset⟩ : Ctx).rest.length) (positive : 0 < n) :
    ∃ next, take link offset n = some ((⟨link,offset⟩ : Ctx).rest.take n,next) ∧ next.rest = (⟨link,offset⟩ : Ctx).rest.drop n := by
  induction link generalizing offset n with
  | nil => simp at enough; omega
  | cons buf more ih =>
    rw [rest_cons] at enough ⊢
    rw [take]
    split
    · rename_i inside
      refine ⟨_,by rw [take_append_of_le_length (by simp; omega)],?_⟩
      rw [rest_cons,drop_append_of_le_length (by simp; omega),drop_drop]
    · rename_i outside
      simp only [length_append,length_drop] at enough
      obtain ⟨next,result,rest⟩ := ih 0 (n-(buf.length-offset)) (by rw [rest_start]; omega) (by omega)
      rw [rest_start] at result rest
      have passed : (buf.drop offset).length ≤ n := by simp; omega
      refine ⟨next,?_,?_⟩
      · rw [result,Option.map_some,take_append,take_of_length_le passed,length_drop]
      · rw [rest,drop_append,drop_of_length_le passed,length_drop,nil_append]

theorem get_rest (ctx : Ctx) (enough : n ≤ ctx.rest.length) :
    get ctx n = some (ctx.rest.take n,skip ctx n) ∧ (skip ctx n).rest = ctx.rest.drop n := by
  unfold skip get
  split
  · rename_i zero
    simp [zero]
  · obtain ⟨next,result,rest⟩ := take_rest ctx.link ctx.offset n enough (by omega)
    rw [result]
    exact ⟨rfl,rest⟩

theorem get_front (split : ctx.rest = xs ++ rest) (size : xs.length = n) :
    get ctx n = some (xs,skip ctx n) ∧ (skip ctx n).rest = rest := by
  obtain ⟨result,after⟩ := get_rest (n:=n) ctx (by simp [split,← size])
  rw [split] at result after
  subst size
  simpa using And.intro result after

theorem take_take (link : List (List UInt8)) (offset a b : Nat) (left : 0 < a) (right : 0 < b) (first : take link offset a = some (xs,c)) :
    (take c.link c.offset b).map Prod.snd = (take link offset (a+b)).map Prod.snd := by
  induction link generalizing offset a xs c with
  | nil => cases first
  | cons buf more ih =>
    rw [take] at first
    split at first
    · cases first
      rw [take,take,← add_assoc]
      split
      · rfl
      · rw [show b-(buf.length-(offset+a)) = a+b-(buf.length-offset) by omega]
        simp [Function.comp_def]
    · rename_i outside
      obtain ⟨⟨ys,d⟩,result,same⟩ := Option.map_eq_some_iff.mp first
      cases same
      have later := ih 0 (a-(buf.length-offset)) (by omega) result
      rw [later]
      conv_rhs => rw [take,if_neg (by omega)]
      rw [show a+b-(buf.length-offset) = a-(buf.length-offset)+b by omega]
      simp [Function.comp_def]

theorem skip_skip (ctx : Ctx) (a b : Nat) (enough : a+b ≤ ctx.rest.length) : skip (skip ctx a) b = skip ctx (a+b) := by
  rcases Nat.eq_zero_or_pos a with rfl | left
  · rw [zero_add]
    rfl
  rcases Nat.eq_zero_or_pos b with rfl | right
  · rfl
  obtain ⟨first,_⟩ := get_rest (n:=a) ctx (by omega)
  have next : take (skip ctx a).link (skip ctx a).offset b = get (skip ctx a) b := by rw [get,if_neg (by omega)]
  have whole : take ctx.link ctx.offset (a+b) = get ctx (a+b) := by rw [get,if_neg (by omega)]
  rw [get,if_neg (by omega)] at first
  have both := take_take ctx.link ctx.offset a b left right first
  rw [next,whole,(get_rest (n:=a+b) ctx enough).1] at both
  unfold skip at both ⊢
  rw [both]
  simp [(get_rest (n:=a+b) ctx enough).1]

end NgxRtmp.Amf
