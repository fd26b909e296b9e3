import NgxRtmp.AmfValues

namespace NgxRtmp.Amf

open List hiding after all count get length lookup mem_of_getElem next replace tail
open Octets Segments

structure Stored (v : Value) (data : Data) (size : Nat) (after : Data) : Prop where
  items : ∀ x ∈ after.items, Admissible x
  null : after.isNull = data.isNull
  holds : v.Named → Fits v data size → Holds v after

structure Filled (v : Value) (e after : Elt) : Prop where
  name : after.name = e.name
  admissible : Admissible after
  holds : v.Named → Asks v e.type → Fits v e.data e.len → Holds v after.data

def FilledEntry (v : Value) : Option Elt → Option Elt → Prop
  | none,after => after = none
  | some e,after => ∃ x, after = some x ∧ Filled v e x

def Reads (n : Nat) (readOne : ReadOne) : Prop :=
  ∀ v entry ctx rest, Value.Wf v → v.encode.length < n → (∀ e ∈ entry, Admissible e) → ctx.rest = v.encode ++ rest →
    ∃ after, readOne ctx entry = .ok (skip ctx v.encode.length,after,true) ∧ FilledEntry v entry after

@[simp] theorem write_items {data : Data} : (data.write bytes).items = data.items := by
  cases data <;> rfl

@[simp] theorem write_isNull {data : Data} : (data.write bytes).isNull = data.isNull := by
  cases data <;> rfl

@[simp] theorem setItems_isNull {data : Data} : (data.setItems items).isNull = data.isNull := by
  cases data <;> rfl

theorem setItems_items {data : Data} (member : x ∈ (data.setItems items).items) : x ∈ items := by
  cases data with
  | elts old => exact member
  | _ => simp [Data.setItems,Data.items] at member

theorem readNumber_reads (data : Data) (split : ctx.rest = bytes ++ rest) (size : bytes.length = n) :
    readNumber ctx n data = .ok (skip ctx n,data.write bytes.reverse,true) := by
  rw [readNumber,(get_front split size).1]

theorem readString_reads (short : text.length < 65536)
    (buffer : data.isNull = false → 0 < size) (split : ctx.rest = bigEndian 2 text.length ++ (text ++ rest)) :
    ∃ shown, readString ctx data size = .ok (skip ctx (2+text.length),data.write (shown ++ [0]),true) ∧
      (text.length < size → shown = text) := by
  obtain ⟨length,after⟩ := get_front split (bigEndian_length 2 _)
  have whole : 2+text.length ≤ ctx.rest.length := by simp [split]
  rw [readString,length]
  dsimp only
  rw [natural_bigEndian_small (show text.length < 256^2 from short)]
  split
  · obtain ⟨result,_⟩ := get_front after rfl
    rw [result,skip_skip ctx 2 _ whole]
    exact ⟨text,rfl,fun _ => rfl⟩
  · rename_i shorter
    simp only [Bool.or_eq_true,decide_eq_true_eq,not_or,Bool.not_eq_true,not_lt] at shorter
    have positive := buffer shorter.1
    have pieces : (skip ctx 2).rest = text.take (size-1) ++ (text.drop (size-1) ++ rest) := by
      rw [after,← append_assoc,take_append_drop]
    rw [show (size+(2^64-1)) % 2^64 = size-1 by omega]
    obtain ⟨first,left⟩ := get_front pieces (n:=size-1) (by simp; omega)
    obtain ⟨second,_⟩ := get_front left (n:=text.length-size+1) (by simp; omega)
    simp only [first,second]
    rw [skip_skip ctx 2 _ (by omega),skip_skip ctx _ _ (by omega),show 2+(size-1)+(text.length-size+1) = 2+text.length by omega]
    exact ⟨_,rfl,fun larger => absurd larger (by omega)⟩

theorem maxLen_fold (elts : List Elt) (start : Nat) :
    start ≤ elts.foldl (fun max e => if e.name.length > max then e.name.length else max) start ∧
    ∀ e ∈ elts, e.name.length ≤ elts.foldl (fun max e => if e.name.length > max then e.name.length else max) start := by
  induction elts generalizing start with
  | nil => simp
  | cons e rest ih =>
    obtain ⟨least,each⟩ := ih (if e.name.length > start then e.name.length else start)
    have both : start ≤ (if e.name.length > start then e.name.length else start) ∧
        e.name.length ≤ if e.name.length > start then e.name.length else start := by
      split <;> omega
    refine ⟨le_trans both.1 least,fun x member => ?_⟩
    rcases mem_cons.mp member with rfl | later
    · exact le_trans both.2 least
    · exact each x later

-- A name that is cut off matches no entry, and neither does the whole one.
theorem getName_reads (split : ctx.rest = name ++ rest) :
    ∃ shown, getName ctx name.length (maxLen elts) = some (shown,skip ctx name.length) ∧
      lookup elts shown name.length = lookup elts name name.length := by
  unfold getName
  split
  · exact ⟨name,(get_front split rfl).1,rfl⟩
  · rename_i longer
    have pieces : ctx.rest = name.take (maxLen elts) ++ (name.drop (maxLen elts) ++ rest) := by
      rw [split,← append_assoc,take_append_drop]
    obtain ⟨first,left⟩ := get_front pieces (n:=maxLen elts) (by simp; omega)
    obtain ⟨second,_⟩ := get_front left (n:=name.length-maxLen elts) (by simp)
    refine ⟨name.take (maxLen elts),?_,?_⟩
    · have enough : name.length ≤ ctx.rest.length := by simp [split]
      rw [first]
      dsimp only
      rw [second,skip_skip ctx _ _ (by omega),Nat.add_sub_cancel' (by omega)]
      rfl
    · have apart : ∀ e ∈ elts, (name.length == e.name.length) = false := by
        intro e member
        have bound := (maxLen_fold elts 0).2 e member
        rw [beq_eq_false_iff_ne]
        intro same
        exact longer (by rw [same]; exact bound)
      unfold lookup
      rw [findIdx_eq_length_of_false fun e member => by simp [apart e member],
        findIdx_eq_length_of_false fun e member => by simp [apart e member]]

theorem cString_clean (clean : 0 ∉ bytes) : cString bytes = bytes := by
  refine takeWhile_eq_self_iff.mpr fun b member => ?_
  simp only [bne_iff_ne,ne_eq]
  rintro rfl
  exact clean member

theorem lookup_name (clean : 0 ∉ name) (found : elts[lookup elts name name.length]? = some e) : e.name = name := by
  have passed : (name.length == e.name.length && sameName name e.name name.length) = true := by
    obtain ⟨inside,rfl⟩ := List.getElem?_eq_some_iff.mp found
    exact findIdx_getElem (w:=inside)
  simp only [Bool.and_eq_true,beq_iff_eq,sameName] at passed
  obtain ⟨length,same⟩ := passed
  rw [take_length,length,take_length,cString_clean clean] at same
  have size : (cString e.name).length = e.name.length := by rw [← same,length]
  rw [same]
  exact ((List.takeWhile_prefix _).eq_of_length size).symm

theorem lookup_here (here : elts[i]? = some e) (name : e.name = f) : lookup elts f f.length ≤ i := by
  obtain ⟨inside,rfl⟩ := List.getElem?_eq_some_iff.mp here
  refine Nat.le_of_not_lt fun later => ?_
  have missed := not_of_lt_findIdx later
  simp [name,sameName] at missed

-- A value has been read under the entry at `n`, when there is one.
structure Replaced (v : Value) (items : List Elt) (n : Nat) (after : List Elt) : Prop where
  admissible : ∀ x ∈ after, Admissible x
  names : after.map Elt.name = items.map Elt.name
  others : ∀ i, i ≠ n → after[i]? = items[i]?
  here : ∀ e, items[n]? = some e → ∃ x, after[n]? = some x ∧ Filled v e x

theorem replace_filled (admissible : ∀ x ∈ items, Admissible x) (filled : FilledEntry v items[n]? entry) :
    Replaced v items n (replace items n entry) := by
  cases found : items[n]? with
  | none =>
    rw [found] at filled
    obtain rfl : entry = none := filled
    exact ⟨admissible,rfl,fun _ _ => rfl,fun e some => by rw [found] at some; cases some⟩
  | some e =>
    rw [found] at filled
    obtain ⟨x,rfl,filled⟩ := filled
    obtain ⟨inside,same⟩ := List.getElem?_eq_some_iff.mp found
    refine ⟨fun y member => ?_,?_,fun i other => ?_,fun y some => ?_⟩
    · rcases mem_or_eq_of_mem_set member with old | rfl
      · exact admissible y old
      · exact filled.admissible
    · have own := set_getElem_self (show n < (items.map Elt.name).length by simpa using inside)
      rw [getElem_map,same] at own
      rw [replace,map_set,filled.name,own]
    · exact List.getElem?_set_ne (Ne.symm other)
    · rw [found] at some
      cases some
      exact ⟨x,by simp [replace,inside],filled⟩

structure FilledFields (fields : List (List UInt8 × Value)) (items after : List Elt) : Prop where
  admissible : ∀ x ∈ after, Admissible x
  names : after.map Elt.name = items.map Elt.name
  others : Names (fields.map Prod.fst) → ∀ (i : Nat) x, items[i]? = some x → x.name ∉ fields.map Prod.fst → after[i]? = some x
  holds : Names (fields.map Prod.fst) → (items.map Elt.name).Nodup → (∀ f ∈ fields, f.2.Named) →
    ∀ f ∈ fields, ∀ (i : Nat) x, items[i]? = some x → x.name = f.1 → Asks f.2 x.type → Fits f.2 x.data x.len →
      ∃ y, after[i]? = some y ∧ Holds f.2 y.data

theorem names_index {items : List Elt} {i : Nat} (distinct : (items.map Elt.name).Nodup) (left : items[i]? = some x) (right : items[j]? = some y)
    (same : x.name = y.name) : i = j := by
  obtain ⟨inside,_⟩ := List.getElem?_eq_some_iff.mp left
  refine (List.getElem?_inj (by simpa using inside) distinct).mp ?_
  rw [getElem?_map,getElem?_map,left,right,Option.map_some,Option.map_some,same]

theorem filled_cons (replaced : Replaced v items (lookup items name name.length) next) (later : FilledFields fields next after) :
    FilledFields ((name,v)::fields) items after := by
  refine ⟨later.admissible,later.names.trans replaced.names,fun names i x here apart => ?_,fun names distinct named f member i x here own asks fits => ?_⟩
  · simp only [map_cons,mem_cons,not_or] at apart
    obtain ⟨nodup,clean⟩ := names
    refine later.others ⟨(nodup_cons.mp nodup).2,fun n m => clean n (by simp [m])⟩ i x ?_ apart.2
    rw [replaced.others i,here]
    rintro rfl
    exact apart.1 (lookup_name (clean name (by simp)) here)
  · obtain ⟨nodup,clean⟩ := names
    simp only [map_cons,nodup_cons] at nodup
    have tail : Names (fields.map Prod.fst) := ⟨nodup.2,fun n m => clean n (by simp [m])⟩
    rcases mem_cons.mp member with rfl | old
    · -- the field just read: its entry is left alone from here on
      have below := lookup_here here own
      obtain ⟨e,found⟩ : ∃ e, items[lookup items name name.length]? = some e := by
        obtain ⟨inside,_⟩ := List.getElem?_eq_some_iff.mp here
        exact ⟨_,List.getElem?_eq_getElem (lt_of_le_of_lt below inside)⟩
      obtain rfl : i = lookup items name name.length :=
        names_index distinct here found (own.trans (lookup_name (clean name (by simp)) found).symm)
      obtain ⟨y,kept,filled⟩ := replaced.here x here
      refine ⟨y,later.others tail _ y kept ?_,filled.holds (named (name,v) (by simp)) asks fits⟩
      rw [filled.name,own]
      exact nodup.1
    · have other : i ≠ lookup items name name.length := by
        rintro rfl
        have equal := lookup_name (clean name (by simp)) here
        exact nodup.1 (mem_map.mpr ⟨f,old,own.symm.trans equal⟩)
      refine later.holds tail (by rwa [replaced.names]) (fun g m => named g (by simp [m])) f old i x ?_ own asks fits
      rw [replaced.others i other,here]

theorem readObject_reads (reads : Reads n readOne)
    (names : ∀ f ∈ fields, f.1 ≠ [] ∧ f.1.length < 65536) (values : ∀ f ∈ fields, f.2.Wf) (small : (encodeFields fields).length < n)
    (fuel : fields.length < k) (admissible : ∀ x ∈ items, Admissible x) (split : ctx.rest = encodeFields fields ++ ([0,0,0x09] ++ rest)) :
    ∃ after, readObject readOne k ctx items = .ok (skip ctx ((encodeFields fields).length+3),after) ∧ FilledFields fields items after := by
  induction fields generalizing k ctx items with
  | nil =>
    obtain ⟨k,rfl⟩ := Nat.exists_eq_add_one_of_ne_zero (Nat.ne_of_gt fuel)
    obtain ⟨key,after⟩ := get_front (n:=2) (show ctx.rest = [0,0] ++ ([0x09] ++ rest) by simpa [encodeFields] using split) rfl
    obtain ⟨mark,_⟩ := get_front (n:=1) after rfl
    refine ⟨items,?_,admissible,rfl,fun _ _ _ here _ => here,by simp⟩
    have zero : natural [0,0] = 0 := rfl
    have nine : natural [0x09] = 0x09 := rfl
    simp only [readObject,key,zero,mark,nine,if_true]
    rw [skip_skip ctx _ _ (by simp [split]; omega)]
    simp [encodeFields]
  | cons field fields ih =>
    obtain ⟨name,v⟩ := field
    obtain ⟨k,rfl⟩ := Nat.exists_eq_add_one_of_ne_zero (Nat.ne_of_gt (lt_of_le_of_lt (Nat.zero_le _) fuel))
    rw [encodeFields_cons] at split small ⊢
    simp only [length_append,bigEndian_length,append_assoc] at split small ⊢
    obtain ⟨filled,short⟩ := names (name,v) (by simp)
    have whole : 2+(name.length+(v.encode.length+(encodeFields fields).length))+3 ≤ ctx.rest.length := by
      simp [split]
      omega
    obtain ⟨key,keyed⟩ := get_front split (bigEndian_length 2 _)
    obtain ⟨shown,named,same⟩ := getName_reads keyed
    obtain ⟨_,left⟩ := get_front keyed rfl
    obtain ⟨entry,value,written⟩ := reads v items[lookup items name name.length]? _ _ (values (name,v) (by simp)) (by omega)
      (fun e found => admissible e (mem_of_getElem? found)) left
    obtain ⟨_,right⟩ := get_front left rfl
    have replaced := replace_filled admissible written
    obtain ⟨after,result,later⟩ := ih (fun f m => names f (by simp [m])) (fun f m => values f (by simp [m])) (by omega)
      (show fields.length < k by simpa using fuel) replaced.admissible right
    refine ⟨after,?_,filled_cons replaced later⟩
    have positive : name.length ≠ 0 := by simpa using filled
    rw [readObject,key]
    dsimp only
    rw [natural_bigEndian_small (show name.length < 256^2 from short),if_neg positive,named]
    dsimp only
    rw [same,value]
    dsimp only
    rw [result,skip_skip ctx _ _ (by omega),skip_skip ctx _ _ (by omega),skip_skip ctx _ _ (by omega)]
    simp only [add_assoc]

structure FilledItems (values : List Value) (n : Nat) (items after : List Elt) : Prop where
  admissible : ∀ x ∈ after, Admissible x
  names : after.map Elt.name = items.map Elt.name
  others : ∀ i, i < n → after[i]? = items[i]?
  holds : (∀ v ∈ values, v.Named) → ∀ (i : Nat) v x, values[i]? = some v → items[n+i]? = some x → Asks v x.type → Fits v x.data x.len →
    ∃ y, after[n+i]? = some y ∧ Holds v y.data

theorem readItems_reads (reads : Reads m readOne) (wf : ∀ v ∈ values, v.Wf) (small : (encodeItems values).length < m)
    (n : Nat) (admissible : ∀ x ∈ items, Admissible x) (split : ctx.rest = encodeItems values ++ rest) :
    ∃ after, readItems readOne values.length n ctx items = .ok (skip ctx (encodeItems values).length,after) ∧
      FilledItems values n items after := by
  induction values generalizing n ctx items with
  | nil => exact ⟨items,by simp [readItems,encodeItems,skip,get],admissible,rfl,fun _ _ => rfl,by simp⟩
  | cons v values ih =>
    rw [encodeItems_cons] at split small ⊢
    simp only [append_assoc,length_append] at split small ⊢
    have whole : v.encode.length+(encodeItems values).length ≤ ctx.rest.length := by simp [split]
    obtain ⟨entry,value,written⟩ := reads v items[n]? ctx _ (wf v (by simp)) (by omega)
      (fun e found => admissible e (mem_of_getElem? found)) split
    obtain ⟨_,left⟩ := get_front split rfl
    have replaced := replace_filled admissible written
    obtain ⟨after,result,later⟩ := ih (fun w m => wf w (by simp [m])) (by omega) (n+1) replaced.admissible left
    refine ⟨after,?_,later.admissible,later.names.trans replaced.names,fun i below => ?_,fun named i w x listed here asks fits => ?_⟩
    · rw [length_cons,readItems,value]
      dsimp only
      rw [result,skip_skip ctx _ _ whole]
    · rw [later.others i (by omega),replaced.others i (by omega)]
    · cases i with
      | zero =>
        cases listed
        obtain ⟨y,kept,filled⟩ := replaced.here x here
        exact ⟨y,by rw [add_zero,later.others n (by omega),kept],filled.holds (named v (by simp)) asks fits⟩
      | succ i =>
        have next := later.holds (fun w m => named w (by simp [m])) i w x (by simpa using listed)
        rw [show n+1+i = n+(i+1) by omega,replaced.others _ (by omega)] at next
        exact next here asks fits

theorem readArray_reads (reads : Reads m readOne) (short : values.length < 2^32) (wf : ∀ v ∈ values, v.Wf)
    (small : (encodeItems values).length < m) (admissible : ∀ x ∈ items, Admissible x)
    (split : ctx.rest = bigEndian 4 values.length ++ (encodeItems values ++ rest)) :
    ∃ after, readArray readOne ctx items = .ok (skip ctx (4+(encodeItems values).length),after) ∧ FilledItems values 0 items after := by
  obtain ⟨count,left⟩ := get_front split (bigEndian_length 4 _)
  obtain ⟨after,result,filled⟩ := readItems_reads reads wf small 0 admissible left
  refine ⟨after,?_,filled⟩
  rw [readArray,count]
  dsimp only
  rw [natural_bigEndian_small (show values.length < 256^4 from short),result,skip_skip ctx _ _ (by simp [split])]

theorem holds_fields (filled : FilledFields fields items after) (names : Names (fields.map Prod.fst)) (named : ∀ f ∈ fields, f.2.Named)
    (same : items.map Elt.name = fields.map Prod.fst) (asks : ∀ (i : Nat) f x, fields[i]? = some f → items[i]? = some x → Asks f.2 x.type)
    (each : ∀ (i : Nat) f x, fields[i]? = some f → items[i]? = some x → Fits f.2 x.data x.len) :
    after.map Elt.name = fields.map Prod.fst ∧ ∀ (i : Nat) f x, fields[i]? = some f → after[i]? = some x → Holds f.2 x.data := by
  refine ⟨filled.names.trans same,fun i f y listed here => ?_⟩
  have name : (items[i]?).map Elt.name = some f.1 := by
    rw [← getElem?_map,same,getElem?_map,listed]
    rfl
  obtain ⟨x,found,own⟩ := Option.map_eq_some_iff.mp name
  obtain ⟨z,kept,holds⟩ := filled.holds names (same ▸ names.1) named f (mem_of_getElem? listed) i x found own
    (asks i f x listed found) (each i f x listed found)
  cases here.symm.trans kept
  exact holds

theorem holds_items (filled : FilledItems values 0 items after) (named : ∀ v ∈ values, v.Named) (same : items.length = values.length)
    (asks : ∀ (i : Nat) v x, values[i]? = some v → items[i]? = some x → Asks v x.type)
    (each : ∀ (i : Nat) v x, values[i]? = some v → items[i]? = some x → Fits v x.data x.len) :
    after.length = values.length ∧ ∀ (i : Nat) v x, values[i]? = some v → after[i]? = some x → Holds v x.data := by
  have length : after.length = items.length := by simpa using congrArg List.length filled.names
  refine ⟨length.trans same,fun i v y listed here => ?_⟩
  have inside : i < items.length := by
    rw [← length]
    exact (List.getElem?_eq_some_iff.mp here).1
  have found := List.getElem?_eq_getElem inside
  obtain ⟨z,kept,holds⟩ := filled.holds named i v _ listed (by rwa [zero_add]) (asks i v _ listed found) (each i v _ listed found)
  rw [zero_add] at kept
  cases here.symm.trans kept
  exact holds

theorem fields_short (fields : List (List UInt8 × Value)) : fields.length ≤ (encodeFields fields).length := by
  induction fields with
  | nil => simp [encodeFields]
  | cons field fields ih =>
    rw [encodeFields_cons]
    simp only [length_cons,length_append,bigEndian_length]
    omega

theorem within_stored (result : got = .ok (ctx,items)) {data : Data} (admissible : ∀ x ∈ items, Admissible x)
    (holds : v.Named → Fits v data size → Holds v (data.setItems items)) :
    ∃ after, within data got = .ok (ctx,after,true) ∧ Stored v data size after := by
  rw [result]
  exact ⟨_,rfl,fun x member => admissible x (setItems_items member),setItems_isNull,holds⟩

theorem readValue_reads {v : Value} (data : Data) (size : Nat) (reads : Reads n readOne) (wf : v.Wf) (small : v.encode.length ≤ n+1) (admits : ∀ x ∈ data.items, Admissible x)
    (buffer : v.code = 0x02 → data.isNull = false → 0 < size) (split : ctx.rest = v.body ++ rest) :
    ∃ after, readValue readOne ctx data size (.ofCode v.code) = .ok (skip ctx v.body.length,after,true) ∧ Stored v data size after := by
  rw [encode_length] at small
  cases wf with
  | @number image eight =>
    rw [Value.body] at split ⊢
    have result := readNumber_reads (n:=8) data split (by simpa using eight)
    rw [reverse_reverse] at result
    refine ⟨data.write image,by rw [length_reverse,eight]; exact result,by simpa using admits,by simp,fun _ fits => ?_⟩
    cases fits
    exact .number
  | @boolean byte =>
    rw [Value.body] at split ⊢
    refine ⟨data.write [byte],readNumber_reads data split rfl,by simpa using admits,by simp,fun _ fits => ?_⟩
    cases fits
    exact .boolean
  | @string text short =>
    rw [Value.body] at split ⊢
    rw [append_assoc] at split
    obtain ⟨shown,result,full⟩ := readString_reads short (buffer rfl) split
    refine ⟨data.write (shown ++ [0]),?_,by simpa using admits,by simp,fun _ fits => ?_⟩
    · rw [length_append,bigEndian_length]
      exact result
    · cases fits with
      | string larger room =>
        rw [full larger,Data.write,append_assoc]
        exact .string
  | null =>
    rw [Value.body]
    exact ⟨data,rfl,admits,rfl,fun _ _ => .null⟩
  | undefined =>
    rw [Value.body]
    exact ⟨data,rfl,admits,rfl,fun _ _ => .undefined⟩
  | @object fields names values =>
    rw [Value.body] at split small ⊢
    simp only [append_assoc,length_append,length_cons,length_nil] at split small ⊢
    have short := fields_short fields
    obtain ⟨after,result,filled⟩ := readObject_reads (k:=ctx.rest.length+1) reads names values (by omega)
      (by simp [split]; omega) admits split
    refine within_stored result filled.admissible fun named fits => ?_
    cases named with
    | object distinct named =>
      cases fits with
      | object same asks each =>
        obtain ⟨names,each⟩ := holds_fields filled distinct named same asks each
        exact .object names each
  | @mixedArray fields index four names values =>
    rw [Value.body] at split small ⊢
    simp only [append_assoc,length_append,length_cons,length_nil] at split small ⊢
    have short := fields_short fields
    obtain ⟨skipped,left⟩ := get_front split four
    obtain ⟨after,result,filled⟩ := readObject_reads (k:=(skip ctx 4).rest.length+1) reads names values (by omega)
      (by simp [left]; omega) admits left
    rw [skip_skip ctx _ _ (by simp [split]; omega)] at result
    have step : readValue readOne ctx data size .mixedArray =
        within data (readObject readOne ((skip ctx 4).rest.length+1) (skip ctx 4) data.items) := by
      simp only [readValue,skipped]
    rw [show Kind.ofCode (Value.mixedArray index fields).code = .mixedArray from rfl,step,four]
    refine within_stored result filled.admissible fun named fits => ?_
    cases named with
    | mixedArray distinct named =>
      cases fits with
      | mixedArray same asks each =>
        obtain ⟨names,each⟩ := holds_fields filled distinct named same asks each
        exact .mixedArray names each
  | @array items short values =>
    rw [Value.body] at split small ⊢
    simp only [append_assoc,length_append,bigEndian_length] at split small ⊢
    obtain ⟨after,result,filled⟩ := readArray_reads reads short values (by omega) admits split
    refine within_stored result filled.admissible fun named fits => ?_
    cases named with
    | array named =>
      cases fits with
      | array same asks each =>
        obtain ⟨length,each⟩ := holds_items filled named same asks each
        exact .array length each

theorem store_admissible (admissible : Admissible e) (stored : Stored v e.data e.len after) : Admissible (e.store after) := by
  obtain ⟨type,buffer,_⟩ := admissible
  refine ⟨type,fun string some => buffer string ?_,stored.items⟩
  rw [← stored.null]
  exact some

theorem save_admissible (admissible : Admissible e) : Admissible (save e ctx) := by
  unfold save
  split
  · exact admissible
  · rename_i some
    obtain ⟨type,buffer,_⟩ := admissible
    exact ⟨type,fun string _ => buffer string (by simpa using some),fun x member => by cases member⟩

theorem compatible_string (compatible : isCompatibleType t 0x02 = true) : t = 0x02 := by
  simpa [isCompatibleType] using compatible

theorem asks_compatible (asks : Asks v tag) : isCompatibleType (tag.code % 256) v.code = true := by
  rw [asks.1,Nat.mod_eq_of_lt v.code_small]
  simp [isCompatibleType]

theorem variantIndex_type (found : variantIndex elts type = some n) : ∃ e, elts[n]? = some e ∧ e.type = .plain type := by
  have member := mem_of_getLast? found
  simp only [mem_filter,beq_iff_eq] at member
  exact Option.map_eq_some_iff.mp member.2

theorem typeless_kind : (⟨code,false,true,false⟩ : Tag).kind = .ofCode code := rfl

theorem readElt_typeless (data : Data) (size : Nat) (reads : Reads n (readElt n)) (wf : v.Wf) (small : v.encode.length ≤ n+1)
    (admits : ∀ x ∈ data.items, Admissible x) (buffer : v.code = 0x02 → data.isNull = false → 0 < size) (split : ctx.rest = v.body ++ rest) :
    ∃ after, readElt (n+1) ctx (some (.mk ⟨v.code,false,true,false⟩ [] data size)) =
      .ok (skip ctx v.body.length,some (.mk ⟨v.code,false,true,false⟩ [] after size),true) ∧ Stored v data size after := by
  obtain ⟨after,result,stored⟩ := readValue_reads data size reads wf small admits buffer split
  refine ⟨after,?_,stored⟩
  rw [readElt,Elt.type,if_pos rfl,typeless_kind]
  simp only [Elt.data,Elt.len,result]
  rfl

theorem readVariant_reads {v : Value} (reads : Reads n (readElt n)) (wf : v.Wf) (small : v.encode.length ≤ n+1)
    (admissible : ∀ x ∈ items, Admissible x) (split : ctx.rest = v.encode ++ rest) :
    ∃ after, readVariant (readElt (n+1)) ctx items = .ok (skip ctx v.encode.length,after) ∧ ∀ x ∈ after, Admissible x := by
  obtain ⟨type,left⟩ := get_front (n:=1) (show ctx.rest = [UInt8.ofNat v.code] ++ (v.body ++ rest) from split) rfl
  have whole : skip (skip ctx 1) v.body.length = skip ctx v.encode.length := by
    rw [skip_skip ctx _ _ (by simp [split,Value.encode]; omega),encode_length,add_comm]
  rw [readVariant,type]
  dsimp only
  rw [natural_code]
  cases found : (variantIndex items v.code).bind fun n => items[n]?.map fun e => (n,e) with
  | none =>
    obtain ⟨after,result,_⟩ := readElt_typeless .null 0 reads wf small (by simp [Data.items]) (fun _ null => by cases null) left
    dsimp only
    rw [result,whole]
    exact ⟨items,rfl,admissible⟩
  | some pair =>
    obtain ⟨m,e⟩ := pair
    obtain ⟨i,index,here⟩ := Option.bind_eq_some_iff.mp found
    obtain ⟨x,listed,same⟩ := Option.map_eq_some_iff.mp here
    cases same
    obtain ⟨y,also,own⟩ := variantIndex_type index
    cases listed.symm.trans also
    have inner := admissible e (mem_of_getElem? listed)
    obtain ⟨_,buffer,within⟩ := inner
    obtain ⟨after,result,stored⟩ := readElt_typeless e.data e.len reads wf small within
      (fun string => buffer (by rw [own]; simp [Tag.plain,string])) left
    dsimp only
    rw [result,whole]
    refine ⟨_,rfl,fun z member => ?_⟩
    rcases mem_or_eq_of_mem_set member with old | rfl
    · exact admissible z old
    · exact store_admissible (admissible e (mem_of_getElem? listed)) stored

theorem encode_positive (v : Value) : 0 < v.encode.length := by
  rw [encode_length]
  omega

theorem readElt_reads : Reads depth (readElt depth) := by
  induction depth using Nat.strongRecOn with
  | ind depth ih =>
    intro v entry ctx rest wf small admissible split
    cases depth with
    | zero => cases small
    | succ depth =>
      have reads := ih depth (Nat.lt_succ_self _)
      obtain ⟨type,left⟩ := get_front (n:=1) (show ctx.rest = [UInt8.ofNat v.code] ++ (v.body ++ rest) from split) rfl
      have whole : skip (skip ctx 1) v.body.length = skip ctx v.encode.length := by
        rw [skip_skip ctx _ _ (by simp [split,Value.encode]; omega),encode_length,add_comm]
      have blind : ∀ size, ∃ after, readValue (readElt depth) (skip ctx 1) .null size (.ofCode v.code) =
          .ok (skip ctx v.encode.length,after,true) := by
        intro size
        obtain ⟨after,result,_⟩ := readValue_reads .null size reads wf (by omega) (by simp [Data.items])
          (fun _ null => by cases null) left
        exact ⟨after,whole ▸ result⟩
      cases entry with
      | none =>
        obtain ⟨after,result⟩ := blind 0
        refine ⟨none,?_,rfl⟩
        rw [readElt,type]
        dsimp only
        rw [natural_code,result]
        rfl
      | some e =>
        have own := admissible e rfl
        obtain ⟨kind,buffer,items⟩ := own
        rw [readElt]
        rcases kind with marked | variant
        · rw [if_neg (by simp [marked]),type]
          dsimp only
          rw [natural_code]
          obtain ⟨after,result⟩ := blind e.len
          split
          · rename_i apart
            rw [result]
            refine ⟨_,rfl,e,rfl,rfl,admissible e rfl,fun _ asks => ?_⟩
            rw [asks_compatible asks] at apart
            cases apart
          · rename_i compatible
            simp only [Bool.not_eq_true,Bool.not_eq_false'] at compatible
            split
            · rename_i saved
              rw [result]
              refine ⟨_,rfl,_,rfl,?_,save_admissible (admissible e rfl),fun _ asks => ?_⟩
              · unfold save
                split <;> rfl
              · rw [asks.2.2] at saved
                cases saved
            · obtain ⟨after,result,stored⟩ := readValue_reads e.data e.len reads wf (by omega) items
                (fun string => buffer (compatible_string (string ▸ compatible))) left
              rw [result,whole]
              exact ⟨_,rfl,_,rfl,rfl,store_admissible (admissible e rfl) stored,fun named _ fits => stored.holds named fits⟩
        · have deep := encode_positive v
          obtain ⟨inner,rfl⟩ := Nat.exists_eq_add_one_of_ne_zero (show depth ≠ 0 by omega)
          obtain ⟨after,result,all⟩ := readVariant_reads (ih inner (by omega)) wf (by omega) items split
          have kind : e.type.kind = .variant := by rw [variant]; rfl
          rw [if_pos (by rw [variant]; rfl),kind,readValue,result]
          refine ⟨_,rfl,_,rfl,rfl,?_,fun _ asks => ?_⟩
          · refine ⟨.inr variant,fun string => ?_,fun x member => all x (setItems_items member)⟩
            have code : e.type.code % 256 = 0x02 := string
            rw [variant] at code
            cases code
          · rw [variant] at asks
            cases asks.2.1

theorem readElt_skips (wf : v.Wf) (admissible : ∀ e ∈ entry, Admissible e)
    (split : ctx.rest = v.encode ++ rest) : ∃ after, readElt (ctx.rest.length+1) ctx entry = .ok (skip ctx v.encode.length,after,true) ∧
      FilledEntry v entry after :=
  readElt_reads v entry ctx rest wf (by rw [split,length_append]; omega) admissible split

theorem read_cons (wf : v.Wf) (admissible : Admissible e) (split : ctx.rest = v.encode ++ rest) (more : List Elt) :
    ∃ x, read ctx (e::more) = (read (skip ctx v.encode.length) more).map (fun out => (out.1,x::out.2)) ∧ Filled v e x := by
  obtain ⟨after,result,x,rfl,filled⟩ := readElt_skips wf (fun f same => Option.some.inj same ▸ admissible) split
  refine ⟨x,?_,filled⟩
  rw [read,result]
  dsimp only
  rw [if_pos rfl]
  cases read (skip ctx v.encode.length) more <;> rfl

theorem read_schema_independent (v : Value) (wf : v.Wf) (entry : Option Elt) (admissible : ∀ e ∈ entry, Admissible e) (ctx : Ctx)
    (rest : List UInt8) (split : ctx.rest = v.encode ++ rest) :
    (∃ after, readElt (ctx.rest.length+1) ctx entry = .ok (skip ctx v.encode.length,after,true)) ∧
    (skip ctx v.encode.length).rest = rest ∧
    ∀ e more, entry = some e → ∃ x, read ctx (e::more) = (read (skip ctx v.encode.length) more).map fun out => (out.1,x::out.2) := by
  obtain ⟨after,result,_⟩ := readElt_skips wf admissible split
  refine ⟨⟨after,result⟩,(get_front split rfl).2,?_⟩
  rintro e more rfl
  obtain ⟨x,result,_⟩ := read_cons wf (admissible e rfl) split more
  exact ⟨x,result⟩

theorem read_schema_independent_variant : ∃ after, readElt 13 ⟨[[3,0],[1,97,2,0],[2,104,105,0,0,9]],0⟩
    (some (.mk .variant [] (.elts [.mk (.plain 3) [] (.elts [.mk (.plain 2) [97] (.memory [0]) 1]) 0]) 0)) =
      .ok (⟨[[2,104,105,0,0,9]],6⟩,after,true) := by
  refine (read_schema_independent (.object [([97],.string [104,105])]) ?_ _ ?_ ⟨[[3,0],[1,97,2,0],[2,104,105,0,0,9]],0⟩ [] rfl).1
  · exact .object (by simp) (by simpa using .string (by decide))
  · rintro e ⟨⟩
    refine ⟨.inr rfl,fun string => absurd string (by decide),fun x member => ?_⟩
    obtain rfl := mem_singleton.mp member
    refine ⟨.inl rfl,fun string => absurd string (by decide),fun y member => ?_⟩
    obtain rfl := mem_singleton.mp member
    exact ⟨.inl rfl,fun _ _ => Nat.one_pos,fun z member => by cases member⟩

end NgxRtmp.Amf
