import NgxRtmp.Record

namespace NgxRtmp.Record
open Octets Flv List

theorem writeFile_end : writeFile file bytes file.length = file ++ bytes := by
  simp [writeFile]

theorem cut_since : cut (timestamp-epoch) = since timestamp epoch := by
  unfold cut since
  generalize timestamp-epoch = d
  have size := d.toBitVec.isLt
  have value : d.toBitVec.toNat = d.toNat := rfl
  by_cases negative : d.toBitVec.toInt < 0
  · simp [negative,Int.max_eq_left (Int.le_of_lt negative)]
  · have small : 2*d.toNat < 2^32 := by
      rw [BitVec.toInt_neg_iff] at negative
      omega
    rw [if_neg negative,Int.max_eq_right (Int.not_lt.mp negative),BitVec.toInt_eq_toNat_of_lt small]
    simp [value]

namespace Node
open List

def extend (node : Node) (bytes : List UInt8) : Node :=
  {node with file:=node.file ++ bytes,rctx:={node.rctx with offset:=node.rctx.offset+bytes.length}}

def AtEnd (node : Node) : Prop := node.rctx.offset = node.file.length

theorem extend_atEnd {node : Node} (at_end : node.AtEnd) (bytes : List UInt8) : (node.extend bytes).AtEnd := by
  simpa [extend,AtEnd] using at_end

theorem extend_nil {node : Node} : node.extend [] = node := by simp [extend]

theorem extend_extend (node : Node) (left right : List UInt8) :
    (node.extend left).extend right = node.extend (left ++ right) := by
  simp [extend,add_assoc]

theorem write_atEnd {node : Node} (at_end : node.AtEnd) : node.write bytes node.rctx.offset = node.extend bytes := by
  simp only [write,extend]
  rw [at_end,writeFile_end]

end Node

theorem writeBody_atEnd {bufs : List (List UInt8)} :
    ∀ {node : Node}, node.AtEnd → writeBody node bufs = node.extend bufs.flatten := by
  induction bufs with
  | nil => intro node _; exact node.extend_nil.symm
  | cons buf bufs ih =>
    intro node at_end
    rw [writeBody,foldl_cons,← writeBody,flatten_cons]
    by_cases empty : buf = []
    · rw [if_pos empty,ih at_end,empty,nil_append]
    · rw [if_neg empty,Node.write_atEnd at_end,ih (Node.extend_atEnd at_end buf),Node.extend_extend]

theorem writeTag_atEnd {node : Node} (at_end : node.AtEnd) (f : Frame) :
    writeTag node f = node.extend (f.tag node.rctx.epoch).encode := by
  have head : tagHead node.rctx f = (f.tag node.rctx.epoch).header := by
    simp only [tagHead,cut_since]
    rfl
  have first := Node.extend_atEnd at_end (tagHead node.rctx f)
  have body := Node.extend_atEnd first f.chain.bufs.flatten
  unfold writeTag
  simp only
  rw [Node.write_atEnd at_end,writeBody_atEnd first,Node.write_atEnd body,
    Node.extend_extend,Node.extend_extend,head]
  simp only [Tag.encode,append_assoc]
  rfl

theorem appendPoint_header : appendPoint (encode 1 flags []) = (0,0) := by
  simp [appendPoint,encode,fileHeader,readFile,word]

theorem readFile_last (front : List UInt8) (t : Tag) :
    readFile (front ++ t.encode) 4 ((front ++ t.encode).length-4) = size32 (tagHeader+t.body.length) ∧
    readFile (front ++ t.encode) 8 front.length = t.header.take 8 := by
  constructor
  · have split : front ++ t.encode = (front ++ t.header ++ t.body) ++ (size32 (tagHeader+t.body.length) ++ []) := by
      simp [Tag.encode]
    have place : (front ++ t.encode).length-4 = (front ++ t.header ++ t.body).length := by
      simp only [length_append,encode_length,header_length]
      omega
    rw [place,split]
    exact readFile_at
  · have split : front ++ t.encode = front ++ (t.header.take 8 ++ (t.header.drop 8 ++ t.body ++ size32 (tagHeader+t.body.length))) := by
      rw [append_assoc (t.header.drop 8),← append_assoc (t.header.take 8),take_append_drop]
      simp [Tag.encode]
    rw [split]
    exact readFile_at

theorem appendPoint_tag {t : Tag} : appendPoint (front ++ t.encode) = ((front ++ t.encode).length,t.timestamp) := by
  obtain ⟨last,head⟩ := readFile_last front t
  have short := t.short
  have number : (UInt32.ofNat (tagHeader+t.body.length)).toNat = tagHeader+t.body.length := by
    simp only [UInt32.toNat_ofNat',tagHeader]
    omega
  have long : (front ++ t.encode).length = front.length+tagHeader+t.body.length+4 := by
    simp only [length_append,encode_length]
    omega
  have place : (front ++ t.encode).length-(tagHeader+t.body.length)-4 = front.length := by omega
  unfold appendPoint
  simp only [last,size32,size24,word_octets,number]
  rw [if_neg (by omega),if_neg,if_neg (by omega),place,head]
  · simp only [Tag.header,size24,cons_append,nil_append,take_succ_cons,take_zero]
    rw [if_neg,word_octets]
    intro different
    apply different
    apply UInt32.toNat_inj.mp
    rw [number,UInt32.toNat_add,word_size24 short]
    simp only [tagHeader,UInt32.reduceToNat]
    omega
  · intro missing
    cases missing with
    | inl zero =>
      rw [zero] at number
      simp [tagHeader] at number
      omega
    | inr small =>
      rw [UInt32.toNat_add,number] at small
      simp only [tagHeader,UInt32.reduceToNat] at small long
      omega

structure Same (a b : Node) : Prop where
  file : b.file = a.file
  log : b.log = a.log
  opened : b.rctx.opened = a.rctx.opened
  session : a.rctx.opened = true → b.rctx.offset = a.rctx.offset ∧ b.rctx.nframes = a.rctx.nframes ∧
    b.rctx.epoch = a.rctx.epoch ∧ b.rctx.timeShift = a.rctx.timeShift ∧ b.rctx.initialized = a.rctx.initialized ∧
    b.rctx.audio = a.rctx.audio ∧ b.rctx.video = a.rctx.video

def heldBack (conf : Conf) (node : Node) (m : Message) : Bool :=
  conf.manual && !m.breaks conf && node.rctx.nframes == 0

def putFrame (node : Node) (f : Frame) (incNframes : Nat) : Node :=
  let node := (writeTag {node with rctx:=node.rctx.carry f.track} f).note (.frame f)
  {node with rctx:={node.rctx with nframes:=node.rctx.nframes+incNframes}}

inductive Act (conf : Conf) : Node → Node → Prop where
  | quiet : Same a b → Act conf a b
  | opened : a.rctx.opened = false → Act conf a (nodeOpen conf now a)
  | closed : a.rctx.opened = true → Act conf a (nodeClose a)
  | ignored : a.rctx.opened = false ∨ admits conf m = false ∨ heldBack conf a m = true → Act conf a (a.note (.arrived m))
  | taken : a.rctx.opened = true → admits conf m = true → heldBack conf a m = false →
      Act conf a (initializeSession (a.note (.arrived m)) m.timestamp)
  | frame : a.rctx.opened = true → a.rctx.initialized = true → Act conf a (putFrame a f n)
  | limit : Act conf a (a.note .limit)
  | refused : a.rctx.opened = false → Entry.limit ∈ a.log → b.file = a.file → b.log = a.log ++ [.refused f] →
      b.rctx.opened = false → Act conf a b

def Acts (conf : Conf) : Node → Node → Prop := Relation.ReflTransGen (Act conf)

theorem acts_one (act : Act conf a b) : Acts conf a b := Relation.ReflTransGen.single act

theorem acts_refl (a : Node) : Acts conf a a := Relation.ReflTransGen.refl

theorem acts_trans (first : Acts conf a b) (second : Acts conf b c) : Acts conf a c :=
  Relation.ReflTransGen.trans first second

theorem nodeOpen_acts : Acts conf a (nodeOpen conf now a) := by
  cases opened : a.rctx.opened with
  | false => exact acts_one (.opened opened)
  | true =>
    rw [nodeOpen,if_pos opened]
    exact acts_refl a

theorem nodeClose_acts : Acts conf a (nodeClose a) := by
  cases opened : a.rctx.opened with
  | true => exact acts_one (.closed opened)
  | false =>
    rw [nodeClose,if_pos (by simp [opened])]
    exact acts_refl a

theorem renew_acts : Acts conf a (renew conf now a) := by
  unfold renew
  split
  · split
    · exact acts_trans nodeClose_acts nodeOpen_acts
    · exact acts_refl a
  · split
    · exact acts_refl a
    · exact nodeOpen_acts

def Ready (node : Node) : Prop :=
  node.rctx.opened = true ∧ node.rctx.initialized = true ∨ node.rctx.opened = false ∧ Entry.limit ∈ node.log

theorem same_ready (same : Same a b) (ready : Ready a) : Ready b := by
  cases ready with
  | inl ready =>
    obtain ⟨_,_,_,_,initialized,_⟩ := same.session ready.1
    exact .inl ⟨same.opened.trans ready.1,initialized.trans ready.2⟩
  | inr ready => exact .inr ⟨same.opened.trans ready.1,same.log ▸ ready.2⟩

theorem carry_opened (rctx : Rctx) (track : Track) : (rctx.carry track).opened = rctx.opened := by cases track <;> rfl

theorem carry_initialized {rctx : Rctx} : (rctx.carry track).initialized = rctx.initialized := by
  cases track <;> rfl

theorem writeBody_rctx (bufs : List (List UInt8)) (node : Node) :
    (writeBody node bufs).rctx.opened = node.rctx.opened ∧ (writeBody node bufs).rctx.initialized = node.rctx.initialized := by
  induction bufs generalizing node with
  | nil => exact ⟨rfl,rfl⟩
  | cons buf bufs ih =>
    obtain ⟨opened,initialized⟩ := ih (if buf = [] then node else node.write buf node.rctx.offset)
    rw [writeBody,foldl_cons,← writeBody,opened,initialized]
    split
    · exact ⟨rfl,rfl⟩
    · exact ⟨rfl,rfl⟩

theorem putFrame_rctx (node : Node) (f : Frame) (n : Nat) :
    (putFrame node f n).rctx.opened = node.rctx.opened ∧ (putFrame node f n).rctx.initialized = node.rctx.initialized := by
  have body := writeBody_rctx f.chain.bufs
    (({node with rctx:=node.rctx.carry f.track} : Node).write (tagHead (node.rctx.carry f.track) f) (node.rctx.carry f.track).offset)
  exact ⟨body.1.trans (carry_opened _ _),body.2.trans carry_initialized⟩

theorem nodeClose_closed : (nodeClose a).rctx.opened = false := by
  unfold nodeClose
  split
  · rename_i opened
    simpa using opened
  · rfl

theorem nodeClose_log : ∃ more, (nodeClose a).log = a.log ++ more := by
  unfold nodeClose
  split
  · exact ⟨[],by simp⟩
  · split
    · exact ⟨_,rfl⟩
    · exact ⟨_,rfl⟩

theorem writeFrame_acts (conf : Conf) (f : Frame) (n : Nat) (ready : Ready a) :
    Acts conf a (writeFrame conf a f n).1 ∧ Ready (writeFrame conf a f n).1 := by
  have carried := carry_opened a.rctx f.track
  unfold writeFrame
  simp only [carried]
  cases ready with
  | inr ready =>
    simp only [ready.1,Bool.not_false,if_true]
    exact ⟨acts_one (.refused ready.1 ready.2 rfl rfl rfl),.inr ⟨rfl,mem_append_left _ ready.2⟩⟩
  | inl ready =>
    simp only [ready.1,Bool.not_true,Bool.false_eq_true,if_false]
    change Acts conf a (if limited conf (putFrame a f n).rctx then (nodeClose ((putFrame a f n).note .limit),true)
      else (putFrame a f n,true)).1 ∧ Ready (if limited conf (putFrame a f n).rctx then
        (nodeClose ((putFrame a f n).note .limit),true) else (putFrame a f n,true)).1
    have put : Acts conf a (putFrame a f n) := acts_one (.frame ready.1 ready.2)
    obtain ⟨opened,initialized⟩ := putFrame_rctx a f n
    split
    · refine ⟨acts_trans (acts_trans put (acts_one .limit)) nodeClose_acts,.inr ⟨nodeClose_closed,?_⟩⟩
      obtain ⟨more,log⟩ := nodeClose_log
      rw [log]
      simp [Node.note]
    · exact ⟨put,.inl ⟨opened.trans ready.1,initialized.trans ready.2⟩⟩

theorem sendHeader_same (a : Node) (track : Track) : Same a {a with rctx:=a.rctx.sendHeader track} := by
  cases track
  · exact ⟨rfl,rfl,rfl,fun _ => ⟨rfl,rfl,rfl,rfl,rfl,rfl,rfl⟩⟩
  · exact ⟨rfl,rfl,rfl,fun _ => ⟨rfl,rfl,rfl,rfl,rfl,rfl,rfl⟩⟩

theorem writeCodecHeader_acts (conf : Conf) (track : Track) (wanted : Bool) (header : Option Chain)
    (timestamp : UInt32) (ready : Ready a) :
    Acts conf a (writeCodecHeader conf track wanted header timestamp a).1 ∧
      Ready (writeCodecHeader conf track wanted header timestamp a).1 := by
  unfold writeCodecHeader
  split
  · exact ⟨acts_refl a,ready⟩
  · rename_i chain
    split
    · exact ⟨acts_refl a,ready⟩
    · have wrote := writeFrame_acts conf ⟨track,timestamp,chain⟩ 0 ready
      revert wrote
      cases writeFrame conf a ⟨track,timestamp,chain⟩ 0 with
      | mk node ok =>
        intro wrote
        cases ok with
        | false => exact wrote
        | true =>
          have same := sendHeader_same node track
          exact ⟨acts_trans wrote.1 (acts_one (.quiet same)),same_ready same wrote.2⟩

theorem writeCodecHeaders_acts (conf : Conf) (codec : Option Codec) (timestamp : UInt32) (ready : Ready a) :
    Acts conf a (writeCodecHeaders conf codec timestamp a).1 ∧ Ready (writeCodecHeaders conf codec timestamp a).1 := by
  cases codec with
  | none => exact ⟨acts_refl a,ready⟩
  | some codec =>
    have aac := writeCodecHeader_acts conf .audio conf.audio codec.aacHeader timestamp ready
    unfold writeCodecHeaders writeAacHeader
    simp only
    revert aac
    cases writeCodecHeader conf .audio conf.audio codec.aacHeader timestamp a with
    | mk node ok =>
      intro aac
      cases ok with
      | false => exact aac
      | true =>
        have avc := writeCodecHeader_acts conf .video (conf.video || conf.keyframes) codec.avcHeader timestamp aac.2
        exact ⟨acts_trans aac.1 avc.1,avc.2⟩

theorem writeMessage_acts (ready : Ready a) : Acts conf a (writeMessage conf codec m a) := by
  unfold writeMessage
  split
  · split
    · exact acts_refl a
    · have same : ∀ key, Same a {a with rctx:={a.rctx with videoKeySent:=key}} := fun key =>
        ⟨rfl,rfl,rfl,fun _ => ⟨rfl,rfl,rfl,rfl,rfl,rfl,rfl⟩⟩
      simp only
      split
      · exact acts_trans (acts_one (.quiet (same _))) (writeFrame_acts conf _ 1 (same_ready (same _) ready)).1
      · exact acts_one (.quiet (same _))
  · split
    · exact acts_refl a
    · exact (writeFrame_acts conf _ 1 ready).1

theorem initializeSession_begun (a : Node) (timestamp : UInt32) (opened : a.rctx.opened = true) :
    (initializeSession a timestamp).rctx.opened = true ∧ (initializeSession a timestamp).rctx.initialized = true := by
  unfold initializeSession
  split
  · rename_i initialized
    exact ⟨opened,initialized⟩
  · simp only
    split
    · exact ⟨opened,rfl⟩
    · exact ⟨opened,rfl⟩

theorem nodeAv_acts : Acts conf a (nodeAv conf now codec a m) := by
  unfold nodeAv
  split
  · exact nodeClose_acts
  · simp only
    have renewed : Acts conf a (if (m.breaks conf && !conf.manual) = true then renew conf now a else a) := by
      split
      · exact renew_acts
      · exact acts_refl a
    apply acts_trans renewed
    generalize (if (m.breaks conf && !conf.manual) = true then renew conf now a else a) = b
    cases held : heldBack conf b m with
    | true =>
      rw [if_pos (show (conf.manual && !m.breaks conf && b.rctx.nframes == 0) = true from held)]
      exact acts_one (.ignored (.inr (.inr held)))
    | false =>
      rw [if_neg (by simpa [heldBack] using held)]
      cases opened : b.rctx.opened with
      | false => exact acts_one (.ignored (.inl opened))
      | true =>
        rw [if_neg (by simp)]
        cases wanted : admits conf m with
        | false => exact acts_one (.ignored (.inr (.inl wanted)))
        | true =>
          rw [if_neg (by simp)]
          apply acts_trans (acts_one (.taken opened wanted held))
          have headers := writeCodecHeaders_acts conf codec m.timestamp
            (.inl (initializeSession_begun (b.note (.arrived m)) m.timestamp opened))
          revert headers
          cases writeCodecHeaders conf codec m.timestamp (initializeSession (b.note (.arrived m)) m.timestamp) with
          | mk node ok =>
            intro headers
            cases ok with
            | false => exact headers.1
            | true => exact acts_trans headers.1 (writeMessage_acts headers.2)

theorem step_acts (conf : Conf) (a : Node) (event : Event) : Acts conf a (step conf a event) := by
  cases event with
  | init =>
    change Acts conf a (if a.rctx.opened then a else {a with rctx:=Rctx.zero})
    split
    · exact acts_refl a
    · rename_i closed
      exact acts_one (.quiet ⟨rfl,rfl,(Bool.eq_false_iff.mpr closed).symm,fun opened => absurd opened closed⟩)
  | start now =>
    change Acts conf a (if conf.off || conf.manual then a else nodeOpen conf now a)
    split
    · exact acts_refl a
    · exact nodeOpen_acts
  | «open» now => exact nodeOpen_acts
  | close => exact nodeClose_acts
  | av now codec m => exact nodeAv_acts

def empty : Node := ⟨Rctx.zero,[],[]⟩

theorem run_acts (conf : Conf) (events : List Event) : Acts conf empty (run conf events) := by
  have from_any : ∀ a, Acts conf a (events.foldl (step conf) a) := by
    induction events with
    | nil => exact acts_refl
    | cons event events ih => exact fun a => acts_trans (step_acts conf a event) (ih _)
  exact from_any empty

theorem run_keeps (conf : Conf) (holds : Node → Prop) (initial : holds empty)
    (keeps : ∀ a b, Act conf a b → holds a → holds b) (events : List Event) : holds (run conf events) := by
  have acts := run_acts conf events
  generalize run conf events = last at acts ⊢
  induction acts with
  | refl => exact initial
  | tail _ act ih => exact keeps _ _ act ih

end NgxRtmp.Record
