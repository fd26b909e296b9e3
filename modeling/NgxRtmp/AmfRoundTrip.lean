import NgxRtmp.AmfReading

namespace NgxRtmp.Amf

open List hiding after count get length next replace
open Octets Segments

-- The data and the len of an element that is written for a value. A string without
-- len is a C string.
inductive Means : Value → Data → Nat → Prop
  | number : Means (.number image) (.memory (image ++ more)) len
  | boolean : Means (.boolean byte) (.memory (byte::more)) len
  | string (some : text ≠ []) : Means (.string text) (.memory (text ++ more)) text.length
  | cString (clean : 0 ∉ text) : Means (.string text) (.memory (text ++ 0::more)) 0
  | noString : Means (.string []) .null 0
  | null : Means .null data len
  | undefined : Means .undefined data len
  | object (same : items.map Elt.name = fields.map Prod.fst)
      (types : ∀ (i : Nat) f x, fields[i]? = some f → items[i]? = some x → x.type = .plain f.2.code)
      (each : ∀ (i : Nat) f x, fields[i]? = some f → items[i]? = some x → Means f.2 x.data x.len) : Means (.object fields) (.elts items) len
  | mixedArray (same : items.map Elt.name = fields.map Prod.fst)
      (types : ∀ (i : Nat) f x, fields[i]? = some f → items[i]? = some x → x.type = .plain f.2.code)
      (each : ∀ (i : Nat) f x, fields[i]? = some f → items[i]? = some x → Means f.2 x.data x.len) :
      Means (.mixedArray [0,0,0,0] fields) (.elts items) len
  | array (same : items.length = values.length)
      (types : ∀ (i : Nat) v x, values[i]? = some v → items[i]? = some x → x.type = .plain v.code)
      (each : ∀ (i : Nat) v x, values[i]? = some v → items[i]? = some x → Means v x.data x.len) : Means (.array values) (.elts items) len

-- The buffers are of any sizes, and there is always another one.
def sized (sizes : Nat → Size) : Alloc := fun k => some (sizes k)

theorem room_space : ∃ after, room (sized sizes) o = some after ∧ after.bytes = o.bytes ∧ 0 < after.space := by
  unfold room
  split
  · refine ⟨_,rfl,?_,?_⟩
    · cases link : o.link <;> simp [Out.bytes,link]
    · simpa [Out.space,Buf.space] using (sizes o.allocated).positive
  · exact ⟨o,rfl,rfl,by omega⟩

theorem append_bytes {o : Out} (space : 0 < o.space) : (o.append p).bytes = o.bytes ++ p := by
  cases link : o.link with
  | none => simp [Out.space,link] at space
  | some b => simp [Out.bytes,Out.append,link]

theorem put_bytes (sizes : Nat → Size) (o : Out) (p : List UInt8) : ∃ after, put (sized sizes) o p = some after ∧ after.bytes = o.bytes ++ p := by
  generalize length : p.length = n
  induction n using Nat.strongRecOn generalizing o p with
  | ind n ih =>
    rw [put]
    split
    · rename_i empty
      exact ⟨o,rfl,by simp [empty]⟩
    · obtain ⟨next,found,same,space⟩ := room_space
      rw [found]
      dsimp only
      split
      · exact ⟨_,rfl,by rw [append_bytes space,same]⟩
      · rename_i longer
        rw [if_neg (by omega)]
        obtain ⟨after,result,bytes⟩ := ih (p.drop next.space).length (by rw [length_drop]; omega)
          (next.append (p.take next.space)) (p.drop next.space) rfl
        refine ⟨after,result,?_⟩
        rw [bytes,append_bytes space,same,append_assoc,take_append_drop]

def Writes (sizes : Nat → Size) (n : Nat) : Prop :=
  ∀ v e o, Value.Wf v → v.encode.length < n → e.type = .plain v.code → Means v e.data e.len →
    ∃ after, writeElt (sized sizes) o e = some after ∧ after.bytes = o.bytes ++ v.encode

theorem writeObject_means (writes : Writes sizes n) (fields : List (List UInt8 × Value)) (items : List Elt) (o : Out)
    (names : ∀ f ∈ fields, f.1 ≠ [] ∧ f.1.length < 65536) (values : ∀ f ∈ fields, f.2.Wf) (small : (encodeFields fields).length < n)
    (same : items.map Elt.name = fields.map Prod.fst)
    (types : ∀ (i : Nat) f x, fields[i]? = some f → items[i]? = some x → x.type = .plain f.2.code)
    (each : ∀ (i : Nat) f x, fields[i]? = some f → items[i]? = some x → Means f.2 x.data x.len) :
    ∃ after, writeObject (sized sizes) o items = some after ∧ after.bytes = o.bytes ++ (encodeFields fields ++ [0,0]) := by
  induction fields generalizing items o with
  | nil =>
    obtain rfl : items = [] := by simpa using same
    rw [writeObject,encodeFields]
    exact put_bytes sizes o [0,0]
  | cons field fields ih =>
    obtain ⟨name,v⟩ := field
    cases items with
    | nil => cases same
    | cons e items =>
      simp only [map_cons,List.cons.injEq] at same
      obtain ⟨own,same⟩ := same
      obtain ⟨_,short⟩ := names (name,v) (by simp)
      rw [encodeFields_cons] at small ⊢
      simp only [length_append] at small
      obtain ⟨first,put1,bytes1⟩ := put_bytes sizes o (bigEndian 2 e.name.length)
      obtain ⟨second,put2,bytes2⟩ := put_bytes sizes first (e.name.take (e.name.length % 65536))
      obtain ⟨third,put3,bytes3⟩ := writes v e second (values (name,v) (by simp)) (by omega) (types 0 (name,v) e rfl rfl) (each 0 (name,v) e rfl rfl)
      obtain ⟨after,result,bytes⟩ := ih items third (fun f m => names f (by simp [m])) (fun f m => values f (by simp [m])) (by omega) same
        (fun i f x left right => types (i+1) f x left right) (fun i f x left right => each (i+1) f x left right)
      refine ⟨after,?_,?_⟩
      · simp only [writeObject,put1,put2,put3,result]
      · have whole : e.name.take (e.name.length % 65536) = name := by
          rw [own,Nat.mod_eq_of_lt short,take_length]
        rw [bytes,bytes3,bytes2,bytes1,whole,own]
        simp

theorem write_means (writes : Writes sizes n) (values : List Value) (items : List Elt) (o : Out) (wf : ∀ v ∈ values, v.Wf)
    (small : (encodeItems values).length < n) (same : items.length = values.length)
    (types : ∀ (i : Nat) v x, values[i]? = some v → items[i]? = some x → x.type = .plain v.code)
    (each : ∀ (i : Nat) v x, values[i]? = some v → items[i]? = some x → Means v x.data x.len) :
    ∃ after, write (sized sizes) o items = some after ∧ after.bytes = o.bytes ++ encodeItems values := by
  induction values generalizing items o with
  | nil =>
    obtain rfl : items = [] := by simpa using same
    exact ⟨o,by rw [write],by simp [encodeItems]⟩
  | cons v values ih =>
    cases items with
    | nil => cases same
    | cons e items =>
      rw [encodeItems_cons] at small ⊢
      simp only [length_append] at small
      obtain ⟨next,first,bytes1⟩ := writes v e o (wf v (by simp)) (by omega) (types 0 v e rfl rfl) (each 0 v e rfl rfl)
      obtain ⟨after,result,bytes⟩ := ih items next (fun w m => wf w (by simp [m])) (by omega) (by simpa using same)
        (fun i f x left right => types (i+1) f x left right) (fun i f x left right => each (i+1) f x left right)
      refine ⟨after,by simp only [write,first,result],?_⟩
      rw [bytes,bytes1,append_assoc]

theorem stringLen_text (short : text.length < 65536) (means : Means (.string text) data len) :
    stringLen data len = text.length ∧ data.bytes text.length = text := by
  cases means with
  | string some =>
    have positive : text.length ≠ 0 := by simpa using some
    simp [stringLen,Data.bytes,Nat.mod_eq_of_lt short,positive]
  | @cString _ more clean =>
    have stop : (cString (text ++ 0::more)).length = text.length := by
      rw [cString,takeWhile_append_of_pos]
      · simp
      · intro b member
        simp only [bne_iff_ne,ne_eq]
        rintro rfl
        exact clean member
    simp [stringLen,Data.bytes,stop,Nat.mod_eq_of_lt short]
  | noString => simp [stringLen,Data.bytes]

theorem closed_object (written : writeObject (sized sizes) o items = some after)
    (bytes : after.bytes = o.bytes ++ (encodeFields fields ++ [0,0])) : ∃ final,
      (writeObject (sized sizes) o items).bind (put (sized sizes) · [0x09]) = some final ∧
        final.bytes = o.bytes ++ (encodeFields fields ++ [0,0,0x09]) := by
  obtain ⟨final,last,ends⟩ := put_bytes sizes after [0x09]
  refine ⟨final,by rw [written]; exact last,?_⟩
  rw [ends,bytes]
  simp

theorem writeElt_means : Writes sizes n := by
  induction n with
  | zero => exact fun v e o _ small => by cases small
  | succ n ih =>
    intro v e o wf small plain means
    obtain ⟨type,name,data,len⟩ := e
    obtain rfl : type = .plain v.code := plain
    replace means : Means v data len := means
    obtain ⟨first,marked,bytes1⟩ := put_bytes sizes o [UInt8.ofNat v.code]
    rw [encode_length] at small
    suffices body : ∃ after, writeElt (sized sizes) o (.mk (.plain v.code) name data len) = some after ∧ after.bytes = first.bytes ++ v.body by
      obtain ⟨after,result,bytes⟩ := body
      refine ⟨after,result,?_⟩
      rw [bytes,bytes1,Value.encode,append_assoc,singleton_append]
    have start : (if (Tag.plain v.code).typeless = true then some o else put (sized sizes) o [UInt8.ofNat (Tag.plain v.code).code]) = some first := by
      rw [if_neg (by simp [Tag.plain])]
      exact marked
    have kind : (Tag.plain v.code).kind = .ofCode v.code := rfl
    rw [writeElt,start]
    dsimp only
    rw [kind]
    cases wf with
    | @number image eight =>
      cases means
      rw [Value.body]
      simpa [Value.code,Kind.ofCode,Data.bytes,← eight] using put_bytes sizes first image.reverse
    | @boolean byte =>
      cases means
      rw [Value.body]
      simpa [Value.code,Kind.ofCode,Data.bytes] using put_bytes sizes first [byte]
    | @string text short =>
      obtain ⟨length,shown⟩ := stringLen_text short means
      obtain ⟨second,put2,bytes2⟩ := put_bytes sizes first (bigEndian 2 text.length)
      obtain ⟨after,put3,bytes3⟩ := put_bytes sizes second text
      refine ⟨after,?_,?_⟩
      · change (put (sized sizes) first (bigEndian 2 (stringLen data len))).bind _ = _
        rw [length,shown,put2]
        exact put3
      · rw [bytes3,bytes2,Value.body,append_assoc]
    | null => exact ⟨first,rfl,by rw [Value.body,append_nil]⟩
    | undefined => exact ⟨first,rfl,by rw [Value.body,append_nil]⟩
    | @object fields names values =>
      rw [Value.body] at small ⊢
      simp only [length_append,length_cons,length_nil] at small
      cases means with
      | object same types each =>
        obtain ⟨second,written,bytes2⟩ := writeObject_means ih fields _ first names values (by omega) same types each
        exact closed_object written bytes2
    | @mixedArray fields index four names values =>
      rw [Value.body] at small ⊢
      simp only [length_append,length_cons,length_nil] at small
      cases means with
      | @mixedArray _ items _ same types each =>
        obtain ⟨second,put2,bytes2⟩ := put_bytes sizes first [0,0,0,0]
        obtain ⟨third,written,bytes3⟩ := writeObject_means ih fields _ second names values (by omega) same types each
        obtain ⟨after,result,bytes4⟩ := closed_object written bytes3
        refine ⟨after,?_,by rw [bytes4,bytes2,append_assoc]⟩
        rw [put2]
        exact result
    | @array values short wf =>
      rw [Value.body] at small ⊢
      simp only [length_append,bigEndian_length] at small
      cases means with
      | @array _ items _ same types each =>
        obtain ⟨second,put2,bytes2⟩ := put_bytes sizes first (bigEndian 4 values.length)
        obtain ⟨after,result,bytes3⟩ := write_means ih values items second wf (by omega) same types each
        refine ⟨after,?_,by rw [bytes3,bytes2,append_assoc]⟩
        have kind : Kind.ofCode (Value.array values).code = .array := rfl
        simp only [kind,same,put2]
        exact result

theorem fits_entry (asks : Asks v x.type) (buffer : v.code = 0x02 → 0 < x.len) (items : ∀ y ∈ x.data.items, Admissible y) :
    Admissible x := by
  refine ⟨.inl asks.2.1,fun string _ => buffer ?_,items⟩
  rw [asks.1,Nat.mod_eq_of_lt v.code_small] at string
  exact string

theorem named_index {items : List Elt} {fields : List (List UInt8 × Value)} (same : items.map Elt.name = fields.map Prod.fst) (member : x ∈ items) :
    ∃ (i : Nat) (f : List UInt8 × Value), fields[i]? = some f ∧ items[i]? = some x := by
  obtain ⟨i,inside,here⟩ := mem_iff_getElem.mp member
  have length : items.length = fields.length := by simpa using congrArg List.length same
  exact ⟨i,_,List.getElem?_eq_getElem (length ▸ inside),by rw [List.getElem?_eq_getElem inside,here]⟩

theorem fits_admissible (fits : Fits v data size) : (v.code = 0x02 → 0 < size) ∧ ∀ x ∈ data.items, Admissible x := by
  induction fits with
  | number => exact ⟨(fun code => by cases code),fun x member => by cases member⟩
  | boolean => exact ⟨(fun code => by cases code),fun x member => by cases member⟩
  | string larger => exact ⟨fun _ => by omega,fun x member => by cases member⟩
  | null plain => exact ⟨(fun code => by cases code),by simp [plain]⟩
  | undefined plain => exact ⟨(fun code => by cases code),by simp [plain]⟩
  | object same asks each ih =>
    refine ⟨(fun code => by cases code),fun x member => ?_⟩
    obtain ⟨i,f,listed,here⟩ := named_index same member
    exact fits_entry (asks i f x listed here) (ih i f x listed here).1 (ih i f x listed here).2
  | mixedArray same asks each ih =>
    refine ⟨(fun code => by cases code),fun x member => ?_⟩
    obtain ⟨i,f,listed,here⟩ := named_index same member
    exact fits_entry (asks i f x listed here) (ih i f x listed here).1 (ih i f x listed here).2
  | @array values items _ same asks each ih =>
    refine ⟨(fun code => by cases code),fun x member => ?_⟩
    obtain ⟨i,found⟩ := mem_iff_getElem?.mp (show x ∈ items from member)
    have listed : values[i]? = some _ := List.getElem?_eq_getElem (same ▸ (List.getElem?_eq_some_iff.mp found).1)
    exact fits_entry (asks i _ x listed found) (ih i _ x listed found).1 (ih i _ x listed found).2

structure Written (values : List Value) (elts : List Elt) : Prop where
  same : elts.length = values.length
  types : ∀ (i : Nat) v x, values[i]? = some v → elts[i]? = some x → x.type = .plain v.code
  each : ∀ (i : Nat) v x, values[i]? = some v → elts[i]? = some x → Means v x.data x.len

structure Shaped (values : List Value) (schema : List Elt) : Prop where
  same : schema.length = values.length
  asks : ∀ (i : Nat) v x, values[i]? = some v → schema[i]? = some x → Asks v x.type
  each : ∀ (i : Nat) v x, values[i]? = some v → schema[i]? = some x → Fits v x.data x.len

structure Yields (values : List Value) (out : List Elt) : Prop where
  same : out.length = values.length
  each : ∀ (i : Nat) v x, values[i]? = some v → out[i]? = some x → Holds v x.data

theorem read_values (wf : ∀ v ∈ values, v.Wf) (named : ∀ v ∈ values, v.Named) (shaped : Shaped values schema) (split : ctx.rest = encodeItems values ++ rest) :
    ∃ out, read ctx schema = .ok (skip ctx (encodeItems values).length,out) ∧ Yields values out := by
  induction values generalizing schema ctx with
  | nil =>
    obtain rfl : schema = [] := by simpa using shaped.same
    exact ⟨[],by simp [read,encodeItems,skip,get],rfl,by simp⟩
  | cons v values ih =>
    cases schema with
    | nil => cases shaped.same
    | cons e schema =>
      rw [encodeItems_cons] at split ⊢
      rw [append_assoc] at split
      have asks := shaped.asks 0 v e rfl rfl
      have fits := shaped.each 0 v e rfl rfl
      obtain ⟨x,result,filled⟩ := read_cons (wf v (by simp))
        (fits_entry asks (fits_admissible fits).1 (fits_admissible fits).2) split schema
      have later : Shaped values schema :=
        ⟨by simpa using shaped.same,fun i => shaped.asks (i+1),fun i => shaped.each (i+1)⟩
      obtain ⟨out,rest,yields⟩ := ih (fun w m => wf w (by simp [m])) (fun w m => named w (by simp [m])) later (get_front split rfl).2
      refine ⟨x::out,?_,by simp [yields.same],fun i w y listed here => ?_⟩
      · rw [result,rest,skip_skip ctx _ _ (by simp [split]),length_append]
        rfl
      · cases i with
        | zero =>
          cases listed
          cases here
          exact filled.holds (named v (by simp)) asks fits
        | succ i => exact yields.each i w y listed here

theorem amf_round_trip (sizes : Nat → Size) (o : Out) (values : List Value) (elts schema : List Elt) (wf : ∀ v ∈ values, v.Wf)
    (named : ∀ v ∈ values, v.Named) (written : Written values elts) (shaped : Shaped values schema) :
    ∃ after bytes, write (sized sizes) o elts = some after ∧ after.bytes = o.bytes ++ bytes ∧
      ∀ link : List (List UInt8), link.flatten = bytes → ∃ out,
        read ⟨link,0⟩ schema = .ok (skip ⟨link,0⟩ bytes.length,out) ∧ (skip ⟨link,0⟩ bytes.length).rest = [] ∧ Yields values out := by
  obtain ⟨after,result,bytes⟩ := write_means writeElt_means values elts o wf (Nat.lt_succ_self _)
    written.same written.types written.each
  refine ⟨after,encodeItems values,result,bytes,fun link same => ?_⟩
  have split : (⟨link,0⟩ : Ctx).rest = encodeItems values ++ [] := by rw [rest_start,same,append_nil]
  obtain ⟨out,read,yields⟩ := read_values wf named shaped split
  exact ⟨out,read,(get_front split rfl).2,yields⟩

theorem only {R : α → β → Prop} (here : R a b) (i : Nat) (x : α) (y : β) (left : [a][i]? = some x) (right : [b][i]? = some y) : R x y := by
  cases i with
  | zero =>
    cases left
    cases right
    exact here
  | succ i => cases left

theorem amf_round_trip_nested : ∃ after bytes,
    write (sized fun _ => ⟨3,by decide⟩) .empty [.mk (.plain 3) [] (.elts [.mk (.plain 2) [97] (.memory [104,105,0]) 0]) 0] = some after ∧
      after.bytes = Out.empty.bytes ++ bytes ∧ ∀ link : List (List UInt8), link.flatten = bytes → ∃ out,
        read ⟨link,0⟩ [.mk (.plain 3) [] (.elts [.mk (.plain 2) [97] (.memory [0,0,0,0]) 4]) 0] = .ok (skip ⟨link,0⟩ bytes.length,out) ∧
          (skip ⟨link,0⟩ bytes.length).rest = [] ∧ Yields [.object [([97],.string [104,105])]] out := by
  refine amf_round_trip _ _ _ _ _ ?_ ?_ ⟨rfl,only rfl,only (.object rfl (only rfl) (only ?_))⟩
    ⟨rfl,only ⟨rfl,rfl,rfl⟩,only (.object rfl (only ⟨rfl,rfl,rfl⟩) (only (.string (by decide) (by decide))))⟩
  · simpa using .object (by simp) (by simpa using .string (by decide))
  · simpa using .object (by simp [Names]) (by simpa using .string)
  · exact (show Means (.string [104,105]) (.memory ([104,105] ++ [0])) 0 from .cString (by decide))

@[simp] theorem empty_bytes : Out.empty.bytes = [] := rfl
@[simp] theorem plain_typeless : (Tag.plain code).typeless = false := rfl
@[simp] theorem plain_code : (Tag.plain code).code = code := rfl
@[simp] theorem plain_kind : (Tag.plain code).kind = .ofCode code := rfl

theorem write_blank (sizes : Nat → Size) (o : Out) (n : Nat) :
    ∃ after, write (sized sizes) o (List.replicate n (.mk (.plain 5) [] .null 0)) = some after ∧
      after.bytes = o.bytes ++ List.replicate n 5 := by
  induction n generalizing o with
  | zero => exact ⟨o,rfl,by simp⟩
  | succ n ih =>
    obtain ⟨next,first,bytes1⟩ := put_bytes sizes o [5]
    obtain ⟨after,result,bytes⟩ := ih next
    refine ⟨after,?_,?_⟩
    · rw [replicate_succ,write,writeElt]
      simpa [first,Kind.ofCode] using result
    · rw [bytes,bytes1,append_assoc,replicate_succ,singleton_append]

-- The name of a field and the count of a strict array lose their high bits.
theorem write_long_name (long : name.length = 65536) : ∃ after,
    write (sized sizes) .empty [.mk (.plain 3) [] (.elts [.mk (.plain 5) name .null 0]) 0] = some after ∧ after.bytes = [3,0,0,5,0,0,9] := by
  obtain ⟨o1,put1,bytes1⟩ := put_bytes sizes .empty [3]
  obtain ⟨o2,put2,bytes2⟩ := put_bytes sizes o1 [0,0]
  obtain ⟨o3,put3,bytes3⟩ := put_bytes sizes o2 []
  obtain ⟨o4,put4,bytes4⟩ := put_bytes sizes o3 [5]
  obtain ⟨o5,put5,bytes5⟩ := put_bytes sizes o4 [0,0]
  obtain ⟨o6,put6,bytes6⟩ := put_bytes sizes o5 [9]
  refine ⟨o6,?_,by simp [bytes6,bytes5,bytes4,bytes3,bytes2,bytes1]⟩
  have short : bigEndian 2 65536 = [0,0] := by decide
  simp [write,writeElt,writeObject,Kind.ofCode,Elt.name,long,short,put1,put2,put3,put4,put5,put6]

theorem write_long_array (long : n = 2^32) : ∃ after,
    write (sized sizes) .empty [.mk (.plain 10) [] (.elts (List.replicate n (.mk (.plain 5) [] .null 0))) 0] = some after ∧
      after.bytes = [10,0,0,0,0] ++ List.replicate n 5 := by
  obtain ⟨o1,put1,bytes1⟩ := put_bytes sizes .empty [10]
  obtain ⟨o2,put2,bytes2⟩ := put_bytes sizes o1 [0,0,0,0]
  obtain ⟨o3,result,bytes3⟩ := write_blank sizes o2 n
  refine ⟨o3,?_,by simp [bytes3,bytes2,bytes1]⟩
  have short : bigEndian 4 n = [0,0,0,0] := by
    rw [long]
    decide
  simp [write,writeElt,Kind.ofCode,short,put1,put2,result]

theorem read_empty_array (split : ctx.rest = [10,0,0,0,0] ++ rest) (items : List Elt) :
    read ctx [.mk (.plain 10) [] (.elts items) 0] = .ok (skip ctx 5,[.mk (.plain 10) [] (.elts items) 0]) := by
  obtain ⟨mark,left⟩ := get_front (n:=1) (show ctx.rest = [10] ++ ([0,0,0,0] ++ rest) from split) rfl
  obtain ⟨count,_⟩ := get_front (n:=4) left rfl
  have none : natural [0,0,0,0] = 0 := rfl
  have ten : natural [10] = 10 := rfl
  have both : skip (skip ctx 1) 4 = skip ctx 5 := skip_skip ctx 1 4 (by simp [split])
  simp [read,readElt,Elt.type,Tag.plain,mark,ten,isCompatibleType,Kind.ofCode,readValue,readArray,count,none,readItems,within,into,both,
    Elt.data,Data.setItems,Elt.store,Elt.name,Elt.len,Data.items]

-- A field name of 65536 bytes cannot be read back, and 2^32 elements are left unread.
theorem long_name_unreadable :
    (∃ v elts after, Value.Named v ∧ Written [v] elts ∧ Shaped [v] elts ∧ write (sized fun _ => ⟨4096,by decide⟩) .empty elts = some after ∧
      read ⟨[after.bytes],0⟩ elts = .error .error) ∧
    ∃ v elts after out, Value.Named v ∧ Written [v] elts ∧ Shaped [v] elts ∧ write (sized fun _ => ⟨4096,by decide⟩) .empty elts = some after ∧
      read ⟨[after.bytes],0⟩ elts = .ok out ∧ out.1.rest ≠ [] := by
  constructor
  · generalize named : List.replicate 65536 (97 : UInt8) = name
    have long : name.length = 65536 := by
      rw [← named]
      exact length_replicate
    have clean : 0 ∉ name := by
      rw [← named]
      exact fun zero => absurd (eq_of_mem_replicate zero) (by decide)
    obtain ⟨after,result,bytes⟩ := write_long_name long
    refine ⟨.object [(name,.null)],_,after,.object ⟨by simp,by simpa using clean⟩ (by simpa using .null),
      ⟨rfl,only rfl,only (.object rfl (only rfl) (only .null))⟩,
      ⟨rfl,only ⟨rfl,rfl,rfl⟩,only (.object rfl (only ⟨rfl,rfl,rfl⟩) (only (.null rfl)))⟩,result,?_⟩
    rw [bytes]
    rfl
  · generalize long : (2^32 : Nat) = n
    have positive : n ≠ 0 := by omega
    obtain ⟨after,result,bytes⟩ := write_long_array long.symm
    have split : (⟨[after.bytes],0⟩ : Ctx).rest = [10,0,0,0,0] ++ List.replicate n 5 := by simp [bytes]
    have values : ∀ (i : Nat) v, (List.replicate n Value.null)[i]? = some v → v = .null := by
      intro i v listed
      exact (mem_replicate.mp (mem_of_getElem? listed)).2
    have entries : ∀ (i : Nat) x, (List.replicate n (Elt.mk (.plain 5) [] .null 0))[i]? = some x → x = .mk (.plain 5) [] .null 0 := by
      intro i x listed
      exact (mem_replicate.mp (mem_of_getElem? listed)).2
    refine ⟨.array (List.replicate n .null),_,after,_,.array fun v member => (mem_replicate.mp member).2 ▸ .null,
      ⟨rfl,only rfl,only (.array (by simp) ?_ ?_)⟩,⟨rfl,only ⟨rfl,rfl,rfl⟩,only (.array (by simp) ?_ ?_)⟩,result,read_empty_array split _,?_⟩
    · intro i v x listed here
      rw [values i v listed,entries i x here]
      rfl
    · intro i v x listed here
      rw [values i v listed]
      exact .null
    · intro i v x listed here
      rw [values i v listed,entries i x here]
      exact ⟨rfl,rfl,rfl⟩
    · intro i v x listed here
      rw [values i v listed,entries i x here]
      exact .null rfl
    · rw [(get_front (n:=5) split rfl).2]
      simpa using positive

end NgxRtmp.Amf
