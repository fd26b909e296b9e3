import NgxRtmp.ChunkLanes

namespace NgxRtmp.ChunkWriter
open ChunkHeader Decode Octets

def Message.header (m : Message) : Header := {m.h with mlen:=m.mlen}

def Message.head (m : Message) : List UInt8 := firstHeader m.h m.fmt m.field m.mlen

theorem Message.head_parts (m : Message) :
    m.head = basicHeader m.fmt m.h.csid.toNat ++ messageHeader m.fmt (splitTimestamp m.field).1 m.mlen m.h.type m.h.msid ++
      extension m.field := rfl

theorem wire_head {m : Message} (positive : 0 < cscf.chunkSize) (named : 2 ≤ m.h.csid.toNat)
    (known : m.h.csid.toNat < cscf.maxStreams) (some : m.input ≠ []) :
    ∃ piece rest, m.wire cscf = (m.head ++ piece)::rest := by
  obtain ⟨pieces,cut,wire⟩ := wire_chunks positive named known some
  obtain ⟨piece,others,rfl⟩ := List.exists_cons_of_ne_nil cut.some
  exact ⟨piece,_,wire⟩

end NgxRtmp.ChunkWriter

namespace NgxRtmp.HeaderCompression
open ChunkWriter ChunkHeader Decode Octets

def readHead (fix : Bool) (st : Chan) (bytes : List UInt8) : Option (Chan × List UInt8) :=
  match basicHead bytes with
  | none => none
  | some (fmt,csid,size) =>
    match messageHead fix fmt (named csid st) (bytes.drop size) with
    | (_,none) => none
    | (chan,some more) => some (chan,(bytes.drop size).drop more)

theorem laneStep_readHead (stepped : laneStep conf chunkSize n lane bytes = some (next,[d])) :
    ∃ chan rest, readHead conf.publishTimeFix lane.1 bytes = some (chan,rest) ∧ next.1 = finish chan ∧ d.h = (finish chan).hdr := by
  cases (laneStep_iff ..).mp stepped with
  | @last _ size _ _ head known read =>
    unfold readChunk at read
    split at read
    · cases read
    · rename_i chan more message
      split at read
      · cases read
      · split at read
        · cases read
        · split at read
          · cases read
          · obtain ⟨rfl,-,-⟩ := Chunk.last.inj (Option.some.inj read)
            refine ⟨chan,(bytes.drop size).drop more,?_,rfl,rfl⟩
            simp only [readHead,head,message]

def Names (csid : UInt32) : Prop := 2 ≤ csid.toNat ∧ csid.toNat < 65600

instance : Decidable (Names csid) := inferInstanceAs (Decidable (_ ∧ _))

-- The header of m ends before `rest` and delivers all its fields.
structure Reads (fix : Bool) (st : Chan) (m : Message) (rest : List UInt8) (chan : Chan) : Prop where
  read : readHead fix st (m.head ++ rest) = some (chan,rest)
  header : (finish chan).hdr = m.header

-- Formats 2 and 3 need the previous message to be like the next one.
def Alike (prev m : Message) : Prop :=
  m.h.msid = prev.h.msid ∧ m.h.type = prev.h.type ∧ m.mlen ≠ 0 ∧ m.mlen = prev.mlen

-- Nothing that a format 3 would repeat: neither a delta nor an extended timestamp.
def Rests (fix : Bool) (st : Chan) (m : Message) : Prop :=
  match m.fmt with
  | 0 => (extended m.field && fix) = false
  | 3 => st.dtime = 0
  | _ => m.field = 0

def Recoverable (fix : Bool) (st : Chan) (prev m : Message) : Prop :=
  (m.mlen.toNat < 2^24 ∨ Alike prev m) ∧
    (Alike prev m → m.h.timestamp = prev.h.timestamp → Rests fix st prev)

section Read
variable {fix : Bool} {st chan : Chan} {m prev : Message} {rest : List UInt8}

theorem readHead_message (names : Names m.h.csid) :
    readHead fix st (m.head ++ rest) =
      match messageHead fix m.fmt (named m.h.csid.toNat st)
        (messageHeader m.fmt (splitTimestamp m.field).1 m.mlen m.h.type m.h.msid ++ extension m.field ++ rest) with
      | (_,none) => none
      | (chan,some more) => some (chan,
        (messageHeader m.fmt (splitTimestamp m.field).1 m.mlen m.h.type m.h.msid ++ extension m.field ++ rest).drop more) := by
  have known : m.fmt < 4 := chunkFormat_known ..
  have basic := basicHead_read known names.1 names.2
    (messageHeader m.fmt (splitTimestamp m.field).1 m.mlen m.h.type m.h.msid ++ extension m.field ++ rest)
  have bytes : m.head ++ rest = basicHeader m.fmt m.h.csid.toNat ++
      (messageHeader m.fmt (splitTimestamp m.field).1 m.mlen m.h.type m.h.msid ++ extension m.field ++ rest) := by
    rw [m.head_parts,List.append_assoc,List.append_assoc,List.append_assoc]
  unfold readHead
  rw [bytes,basic]
  simp only [List.drop_left]

theorem readHead_dated (names : Names m.h.csid) (dated : m.fmt < 3) :
    readHead fix st (m.head ++ rest) =
      some (headDone fix m.fmt (extended m.field) m.field (fields m.fmt m.h (short m.mlen) (named m.h.csid.toNat st)),rest) := by
  obtain ⟨whole,announced⟩ := short_read
  have head := messageHead_fields fix dated (splitTimestamp m.field).1 m.mlen m.h (named m.h.csid.toNat st) (extension m.field ++ rest)
  rw [word_octets,whole,announced,extendedHead_read,←List.append_assoc,←List.length_append] at head
  rw [readHead_message names,head]
  simp only [List.drop_left]

theorem head_repeats (repeats : m.fmt = 3) :
    messageHeader m.fmt (splitTimestamp m.field).1 m.mlen m.h.type m.h.msid ++ extension m.field ++ rest = rest := by
  have none : extension m.field = [] := if_neg (of_decide_eq_false (chunkFormat_repeats repeats))
  rw [none,repeats]
  rfl

theorem readHead_repeats (names : Names m.h.csid) (repeats : m.fmt = 3) (plain : st.ext = false) (rest : List UInt8) :
    readHead fix st (m.head ++ rest) = some (headDone fix 3 false st.dtime (named m.h.csid.toNat st),rest) := by
  have ext : (named m.h.csid.toNat st).ext = false := plain
  rw [readHead_message names,head_repeats repeats,repeats]
  simp only [messageHead,extendedHead,ext]
  rfl

-- A chunk stream that waits for the extended timestamp takes it from the payload.
theorem readHead_shifted (names : Names m.h.csid) (repeats : m.fmt = 3) (waits : st.ext = true) (rest : List UInt8) :
    readHead fix st (m.head ++ rest) ≠ some (chan,rest) := by
  have ext : (named m.h.csid.toNat st).ext = true := waits
  rw [readHead_message names,head_repeats repeats,repeats]
  intro read
  split at read
  · cases read
  · rename_i head
    rcases extendedHead_parts (show extendedHead fix 3 (named m.h.csid.toNat st).ext _ 0 _ rest = _ from head) with
      ⟨plain,_⟩ | ⟨e3,e2,e1,e0,payload,_,rfl,rfl,_⟩
    · exact absurd (ext.symm.trans plain) (by decide)
    · have behind : payload = e3::e2::e1::e0::payload := congrArg Prod.snd (Option.some.inj read)
      have longer := congrArg List.length behind
      simp only [List.length_cons] at longer
      omega

theorem short_exact : short x = x ↔ x.toNat < 2^24 := by
  refine ⟨?_,word_octets24 x⟩
  intro same
  have bound := word_toNat (octet x 0) (octet x 1) (octet x 2) 0
  have value : (word (octet x 0) (octet x 1) (octet x 2) 0).toNat = x.toNat := congrArg UInt32.toNat same
  have first := (octet x 0).toNat_lt
  have second := (octet x 1).toNat_lt
  have third := (octet x 2).toNat_lt
  have zero : (0 : UInt8).toNat = 0 := rfl
  omega

theorem Reads.rests (names : Names m.h.csid) (between : st.len = 0) (reads : Reads fix st m rest chan) :
    (chan.dtime = 0 ∧ chan.ext = false) ↔ Rests fix st m := by
  have read := reads.read
  by_cases repeats : m.fmt = 3
  · have plain : st.ext = false := by
      cases ext : st.ext with
      | false => rfl
      | true => exact absurd read (readHead_shifted names repeats ext rest)
    rw [readHead_repeats names repeats plain] at read
    obtain rfl := congrArg Prod.fst (Option.some.inj read)
    have begins : headDone fix 3 false st.dtime (named m.h.csid.toNat st) =
        {named m.h.csid.toNat st with ext:=false,dtime:=st.dtime} := if_pos between
    unfold Rests
    rw [begins,repeats]
    exact and_iff_left rfl
  · have known : m.fmt < 4 := chunkFormat_known ..
    have dated : m.fmt < 3 := by omega
    rw [readHead_dated names dated] at read
    obtain rfl := congrArg Prod.fst (Option.some.inj read)
    have begins : (fields m.fmt m.h (short m.mlen) (named m.h.csid.toNat st)).len = 0 := (fields_len ..).trans between
    have zero : extended 0 = false := by decide
    unfold Rests headDone
    rw [if_pos begins]
    match format : m.fmt,dated with
    | 0,_ => exact and_iff_right rfl
    | 1,_ =>
      refine ⟨And.left,fun none => ⟨none,?_⟩⟩
      change (extended m.field && fix) = false
      rw [show m.field = 0 from none,zero]
      rfl
    | 2,_ =>
      refine ⟨And.left,fun none => ⟨none,?_⟩⟩
      change (extended m.field && fix) = false
      rw [show m.field = 0 from none,zero]
      rfl

-- The format of a message that is prepared with the complete header of the
-- one before it
inductive Coded (prev m : Message) : Prop
  | full (other : m.h.msid ≠ prev.h.msid) (fmt : m.fmt = 0) (field : m.field = m.h.timestamp)
  | sized (msid : m.h.msid = prev.h.msid) (other : ¬Alike prev m) (fmt : m.fmt = 1)
      (field : m.field = m.h.timestamp-prev.h.timestamp)
  | timed (alike : Alike prev m) (later : m.h.timestamp ≠ prev.h.timestamp) (fmt : m.fmt = 2)
      (field : m.field = m.h.timestamp-prev.h.timestamp)
  | repeated (alike : Alike prev m) (now : m.h.timestamp = prev.h.timestamp) (fmt : m.fmt = 3)

theorem coded (names : Names prev.h.csid) (follows : m.lh = some prev.header) : Coded prev m := by
  have some : prev.header.csid ≠ 0 := by
    intro none
    have zero : prev.h.csid.toNat = 0 := congrArg UInt32.toNat none
    have two := names.1
    omega
  have format : chunkFormat m.h m.lh m.mlen = if prev.header.csid ≠ 0 ∧ m.h.msid = prev.h.msid then
      (if m.h.type = prev.h.type ∧ m.mlen ≠ 0 ∧ m.mlen = prev.mlen then
        if m.h.timestamp = prev.h.timestamp then 3 else 2
      else 1,m.h.timestamp-prev.h.timestamp)
    else (0,m.h.timestamp) := by
    rw [follows]
    rfl
  by_cases msid : m.h.msid = prev.h.msid
  · rw [if_pos ⟨some,msid⟩] at format
    by_cases rest : m.h.type = prev.h.type ∧ m.mlen ≠ 0 ∧ m.mlen = prev.mlen
    · rw [if_pos rest] at format
      by_cases now : m.h.timestamp = prev.h.timestamp
      · rw [if_pos now] at format
        exact .repeated ⟨msid,rest⟩ now (congrArg Prod.fst format)
      · rw [if_neg now] at format
        exact .timed ⟨msid,rest⟩ now (congrArg Prod.fst format) (congrArg Prod.snd format)
    · rw [if_neg rest] at format
      exact .sized msid (fun alike => rest alike.2) (congrArg Prod.fst format) (congrArg Prod.snd format)
  · rw [if_neg fun both => msid both.2] at format
    exact .full msid (congrArg Prod.fst format) (congrArg Prod.snd format)

theorem readHead_found (read : readHead fix st (m.head ++ rest) = some (chan,rest)) :
    (∃ chan, Reads fix st m rest chan) ↔ (finish chan).hdr = m.header := by
  constructor
  · rintro ⟨found,reads⟩
    obtain rfl : chan = found := congrArg Prod.fst (Option.some.inj (read.symm.trans reads.read))
    exact reads.header
  · intro header
    exact ⟨chan,read,header⟩

theorem dated_header (fix : Bool) (m : Message) (between : st.len = 0) (fmt : Nat) (ext : Bool) (field mlen : UInt32) :
    (finish (headDone fix fmt ext field (fields fmt m.h mlen (named m.h.csid.toNat st)))).hdr =
      {csid:=m.h.csid,timestamp:=if fmt = 0 then field else st.hdr.timestamp+field,mlen:=if fmt ≤ 1 then mlen else st.hdr.mlen,
        type:=if fmt ≤ 1 then m.h.type else st.hdr.type,msid:=if fmt = 0 then m.h.msid else st.hdr.msid} := by
  have begins : (fields fmt m.h mlen (named m.h.csid.toNat st)).len = 0 := (fields_len ..).trans between
  have csid : UInt32.ofNat m.h.csid.toNat = m.h.csid := UInt32.ofNat_toNat
  unfold headDone
  rw [if_pos begins]
  match fmt with
  | 0 => simp [fields,finish,named]
  | 1 => simp [fields,finish,named]
  | fmt+2 => simp [fields,finish,named]

theorem reads_dated (names : Names m.h.csid) (dated : m.fmt < 3) (between : st.len = 0) :
    (∃ chan, Reads fix st m rest chan) ↔
      {csid:=m.h.csid,timestamp:=if m.fmt = 0 then m.field else st.hdr.timestamp+m.field,
        mlen:=if m.fmt ≤ 1 then short m.mlen else st.hdr.mlen,type:=if m.fmt ≤ 1 then m.h.type else st.hdr.type,
        msid:=if m.fmt = 0 then m.h.msid else st.hdr.msid} = m.header := by
  rw [readHead_found (readHead_dated names dated),dated_header fix m between]

theorem header_short : {m.header with mlen:=short m.mlen} = m.header ↔ m.mlen.toNat < 2^24 := by
  rw [←short_exact]
  constructor
  · intro same
    exact congrArg Header.mlen same
  · intro same
    rw [same]
    rfl

theorem reads_iff (names : Names m.h.csid) (own : m.h.csid = prev.h.csid) (follows : m.lh = some prev.header) (between : st.len = 0)
    (kept : st.hdr = prev.header) :
    (∃ chan, Reads fix st m rest chan) ↔ (m.mlen.toNat < 2^24 ∨ Alike prev m) ∧
      (Alike prev m → m.h.timestamp = prev.h.timestamp → st.dtime = 0 ∧ st.ext = false) := by
  have sum : prev.h.timestamp+(m.h.timestamp-prev.h.timestamp) = m.h.timestamp := by rw [UInt32.add_comm,UInt32.sub_add_cancel]
  cases coded (own ▸ names) follows with
  | full other fmt field =>
    have unlike : ¬Alike prev m := fun alike => other alike.1
    rw [reads_dated names (by omega) between,fmt,field]
    refine header_short.trans ?_
    simp only [unlike,or_false,false_implies,and_true]
  | sized msid other fmt field =>
    rw [reads_dated names (by omega) between,fmt,field,kept]
    simp only [Message.header,if_neg (show ¬1 = 0 by decide),sum,←msid,le_refl,if_true]
    refine header_short.trans ?_
    simp only [other,or_false,false_implies,and_true]
  | timed alike later fmt field =>
    rw [reads_dated names (by omega) between,fmt,field,kept]
    refine ⟨fun _ => ⟨.inr alike,fun _ now => absurd now later⟩,fun _ => ?_⟩
    simp only [Message.header,if_neg (show ¬2 = 0 by decide),if_neg (show ¬2 ≤ 1 by decide),sum,alike.1,alike.2.1,alike.2.2.2]
  | repeated alike now fmt =>
    have enough : ((m.mlen.toNat < 2^24 ∨ Alike prev m) ∧
        (Alike prev m → m.h.timestamp = prev.h.timestamp → st.dtime = 0 ∧ st.ext = false)) ↔ st.dtime = 0 ∧ st.ext = false :=
      ⟨fun both => both.2 alike now,fun rests => ⟨.inr alike,fun _ _ => rests⟩⟩
    rw [enough]
    cases ext : st.ext with
    | true =>
      refine ⟨?_,fun both => absurd both.2 (by decide)⟩
      rintro ⟨chan,reads⟩
      exact absurd reads.read (readHead_shifted names fmt ext rest)
    | false =>
      have header : (finish (headDone fix 3 false st.dtime (named m.h.csid.toNat st))).hdr =
          {m.header with timestamp:=m.h.timestamp+st.dtime} := by
        refine (dated_header fix m between 3 false st.dtime m.mlen).trans ?_
        rw [kept]
        simp only [Message.header,if_neg (show ¬3 = 0 by decide),if_neg (show ¬3 ≤ 1 by decide),now,alike.1,alike.2.1,alike.2.2.2]
      rw [readHead_found (readHead_repeats names fmt ext rest),header]
      refine Iff.trans ⟨?_,?_⟩ (and_iff_left rfl).symm
      · intro same
        exact UInt32.add_eq_left.mp (congrArg Header.timestamp same)
      · intro none
        rw [none,UInt32.add_zero]
        rfl

end Read

-- The second is lost only in format 3, behind a delta or an extended timestamp.
theorem next_header_recovered (fix : Bool) (prev m : Message) (st chan : Chan) (payload rest : List UInt8) (names : Names prev.h.csid)
    (own : m.h.csid = prev.h.csid) (follows : m.lh = some prev.header) (between : st.len = 0)
    (just : Reads fix st prev payload chan) :
    (∃ next, Reads fix (finish chan) m rest next) ↔ Recoverable fix st prev m := by
  have kept := just.rests names between
  rw [reads_iff (own ▸ names) own follows rfl just.header]
  unfold Recoverable
  rw [←kept]
  rfl

def audio (timestamp : UInt32) (lh : Option Header) : Message := ⟨⟨6,timestamp,0,8,1⟩,lh,[[1,2]]⟩

def heard (timestamp dtime : UInt32) (ext : Bool) : Chan := ⟨⟨6,timestamp,2,8,1⟩,dtime,0,ext⟩

theorem next_header_recovered_again :
    Reads true Chan.empty (audio 40 none) [1,2] (heard 40 0 false) ∧
      ∃ next, Reads true (finish (heard 40 0 false)) (audio 40 (some (audio 40 none).header)) [1,2] next := by
  have just : Reads true Chan.empty (audio 40 none) [1,2] (heard 40 0 false) := ⟨by decide,by decide⟩
  refine ⟨just,(next_header_recovered true (audio 40 none) (audio 40 (some (audio 40 none).header)) Chan.empty _ [1,2] [1,2]
    (by decide) rfl rfl rfl just).mpr ⟨.inl (by decide),fun _ _ => ?_⟩⟩
  change (extended 40 && true) = false
  decide

-- Messages at 20, 40 and 40 ms arrive at 20, 40 and 60 ms.
theorem repeated_header_misread :
    (Reads true (heard 20 0 false) (audio 40 (some (audio 20 none).header)) [1,2] (heard 20 20 false) ∧
      ∃ next, readHead true (finish (heard 20 20 false))
          ((audio 40 (some (audio 40 (some (audio 20 none).header)).header)).head ++ [1,2]) = some (next,[1,2]) ∧
        (finish next).hdr.timestamp = 60) ∧
    Reads true Chan.empty (audio 0x01000000 none) [1,2] (heard 0x01000000 0 true) ∧
      readHead true (finish (heard 0x01000000 0 true))
        ((audio 0x01000000 (some (audio 0x01000000 none).header)).head ++ [1,2]) = none := by
  refine ⟨⟨⟨by decide,by decide⟩,heard 40 20 false,by decide,by decide⟩,⟨by decide,by decide⟩,by decide⟩

end NgxRtmp.HeaderCompression
