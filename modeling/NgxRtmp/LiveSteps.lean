import NgxRtmp.Live
import NgxRtmp.Lib.Runs

namespace NgxRtmp.Live
open OutQueue ChunkWriter List

structure Offered (c : Ctx) (message : Message) (out : Output Message) : Prop where
  log : out.accepted = c.out.accepted ++ [message]
  hls : out.hls = c.out.hls
  destroyed : c.out.destroyed = true → out.destroyed = true

theorem offer_cases (c : Ctx) (message : Message) (prio : Nat) (socket : List SendResult) :
    (∃ out, c.offer message prio socket = (true,{c with out}) ∧ Offered c message out) ∨
    (c.offer message prio socket = (false,c) ∧ full c.out prio = true) := by
  rcases sendMessage_cases c.out message prio socket with ⟨out,sent,log,hls,_,destroyed⟩ | ⟨refused,_,crowded⟩
  · exact .inl ⟨out,by simp [Ctx.offer,sent],log,hls,destroyed⟩
  · exact .inr ⟨by simp [Ctx.offer,refused],crowded⟩

structure Quiet (o next : Output Message) : Prop where
  log : ∃ notices, next.accepted = o.accepted ++ notices ∧ ∀ m ∈ notices, ∃ notice text, m = noticeOf notice text
  hls : next.hls = o.hls
  destroyed : o.destroyed = true → next.destroyed = true

theorem Quiet.refl (o : Output Message) : Quiet o o := ⟨⟨[],by simp,by simp⟩,rfl,id⟩

theorem Quiet.trans {next : Output Message} (left : Quiet o middle) (right : Quiet middle next) : Quiet o next := by
  obtain ⟨⟨first,firstLog,firstAll⟩,firstHls,firstGone⟩ := left
  obtain ⟨⟨second,secondLog,secondAll⟩,secondHls,secondGone⟩ := right
  refine ⟨⟨first ++ second,by rw [secondLog,firstLog,append_assoc],?_⟩,secondHls.trans firstHls,
    fun gone => secondGone (firstGone gone)⟩
  intro m member
  rcases mem_append.mp member with old | new
  · exact firstAll m old
  · exact secondAll m new

theorem Offered.quiet (offered : Offered c (noticeOf notice text) out) : Quiet c.out out :=
  ⟨⟨[_],offered.log,fun m member => ⟨notice,text,by simpa using member⟩⟩,offered.hls,offered.destroyed⟩

theorem finalize_quiet : Quiet o (OutQueue.finalize o) := ⟨⟨[],by simp [OutQueue.finalize],by simp⟩,rfl,fun _ => rfl⟩

theorem send_quiet : Quiet o (send o timedout socket) := by
  have frame := send_frame o timedout socket
  exact ⟨⟨[],by simp [frame.accepted],by simp⟩,frame.hls,frame.destroyed⟩

theorem offer_notice (c : Ctx) (notice : Notice) (text : Chain) (prio : Nat) (socket : List SendResult) :
    ∃ flag out, c.offer (noticeOf notice text) prio socket = (flag,{c with out}) ∧ Quiet c.out out := by
  rcases offer_cases c (noticeOf notice text) prio socket with ⟨out,sent,offered⟩ | ⟨refused,_⟩
  · exact ⟨true,out,sent,offered.quiet⟩
  · exact ⟨false,c.out,refused,Quiet.refl _⟩

theorem offerAll_cases (messages : List Message) (env : SendEnv) (n : Nat) (c : Ctx)
    (plain : ∀ m ∈ messages, ∃ notice text, m = noticeOf notice text) :
    ∃ flag out, offerAll c env n messages = (flag,{c with out}) ∧ Quiet c.out out ∧
      (flag = false → out.destroyed = true) := by
  induction messages generalizing c n with
  | nil => exact ⟨true,c.out,rfl,Quiet.refl _,by simp⟩
  | cons message rest ih =>
    obtain ⟨notice,text,rfl⟩ := plain message (by simp)
    obtain ⟨flag,out,sent,quiet⟩ := offer_notice c notice text 0 (env.status n)
    cases flag with
    | false =>
      exact ⟨false,OutQueue.finalize out,by simp [offerAll,sent,Ctx.finalize],quiet.trans finalize_quiet,fun _ => rfl⟩
    | true =>
      obtain ⟨flag,final,done,later,failed⟩ := ih (n+1) {c with out} (fun m member => plain m (by simp [member]))
      exact ⟨flag,final,by simp [offerAll,sent,done],quiet.trans later,failed⟩

theorem statuses_plain :
    (∀ m ∈ startStatus conf, ∃ notice text, m = noticeOf notice text) ∧
    (∀ m ∈ stopStatus conf, ∃ notice text, m = noticeOf notice text) := by
  constructor <;> intro m member
  · unfold startStatus at member
    rcases mem_append.mp member with first | second
    · split at first
      · rcases mem_cons.mp first with rfl | rest
        · exact ⟨_,_,rfl⟩
        · exact ⟨_,_,mem_singleton.mp rest⟩
      · cases first
    · split at second
      · exact ⟨_,_,mem_singleton.mp second⟩
      · cases second
  · unfold stopStatus at member
    rcases mem_append.mp member with first | second
    · split at first
      · exact ⟨_,_,mem_singleton.mp first⟩
      · cases first
    · split at second
      · exact ⟨_,_,mem_singleton.mp second⟩
      · cases second

-- Nothing, or the notices go out and the chunk streams are reset unless the session is lost.
theorem switch_cases :
    (c.active = active ∧ switch conf active env c = c) ∨
    (c.active ≠ active ∧ ∃ out, Quiet c.out out ∧
      ((out.destroyed = true ∧ switch conf active env c = {c with active,out}) ∨
        switch conf active env c = {c with active,out}.reset)) := by
  have general : ∀ (notice : Notice) (status : List Message),
      (∀ m ∈ status, ∃ notice text, m = noticeOf notice text) →
      (c.active = active ∧ setStatus c (noticeMessage conf notice) status active env = c) ∨
      (c.active ≠ active ∧ ∃ out, Quiet c.out out ∧
        ((out.destroyed = true ∧ setStatus c (noticeMessage conf notice) status active env = {c with active,out}) ∨
          setStatus c (noticeMessage conf notice) status active env = {c with active,out}.reset)) := by
    intro notice status plain
    by_cases same : c.active = active
    · exact .inl ⟨same,by simp [setStatus,same]⟩
    · refine .inr ⟨same,?_⟩
      obtain ⟨flag,out,sent,quiet⟩ := offer_notice {c with active} notice (conf.text notice) 0 env.control
      cases flag with
      | false =>
        exact ⟨OutQueue.finalize out,quiet.trans finalize_quiet,
          .inl ⟨rfl,by simp [setStatus,same,noticeMessage,sent,Ctx.finalize]⟩⟩
      | true =>
        obtain ⟨flag,final,done,later,failed⟩ := offerAll_cases (if c.silent then [] else status) env 0 {c with active,out}
          (by split <;> simp_all)
        refine ⟨final,quiet.trans later,?_⟩
        cases flag with
        | false => exact .inl ⟨failed rfl,by simp [setStatus,same,noticeMessage,sent,done]⟩
        | true => exact .inr (by simp [setStatus,same,noticeMessage,sent,done])
  unfold switch
  cases active with
  | true => simpa using general .streamBegin _ statuses_plain.1
  | false => simpa using general .streamEof _ statuses_plain.2

-- Metadata may have gone out, and the chunk stream may have been reset for sync.
structure Primed (conf : LiveConf) (b : Broadcast) (env : SendEnv) (c c1 : Ctx) : Prop where
  playing : c.paused = false ∧ c.hls = false
  made : c1 = syncStream conf b (sendMeta b env c)
  quiet : Quiet c.out c1.out
  same : c1 = {c with out:=c1.out,cs:=c1.cs,metaVersion:=c1.metaVersion}
  streams : c1.cs = c.cs ∨ ((c.cs b.csidx).active = true ∧
    c1.cs = Function.update c.cs b.csidx {c.cs b.csidx with active:=false,dropped:=0})

theorem sendMeta_cases : ∃ out metaVersion, sendMeta b env c = {c with out,metaVersion} ∧ Quiet c.out out := by
  unfold sendMeta
  split
  · exact ⟨c.out,c.metaVersion,rfl,Quiet.refl _⟩
  · rename_i text _
    split
    · exact ⟨c.out,c.metaVersion,rfl,Quiet.refl _⟩
    · obtain ⟨flag,out,sent,quiet⟩ := offer_notice c .metadata text 0 env.metadata
      rw [sent]
      cases flag with
      | false => exact ⟨out,c.metaVersion,rfl,quiet⟩
      | true => exact ⟨out,b.metaVersion,rfl,quiet⟩

theorem primed (conf : LiveConf) (b : Broadcast) (env : SendEnv) (c : Ctx) (playing : c.paused = false ∧ c.hls = false) :
    Primed conf b env c (syncStream conf b (sendMeta b env c)) := by
  obtain ⟨out,metaVersion,sent,quiet⟩ := sendMeta_cases
  refine ⟨playing,rfl,?_,?_,?_⟩ <;> rw [sent] <;> unfold syncStream <;> dsimp only <;> split
  · exact quiet
  · exact quiet
  · rfl
  · rfl
  · rename_i late
    exact .inr ⟨late.1,rfl⟩
  · exact .inl rfl

def headerMessages (conf : LiveConf) (b : Broadcast) (dummies : List Message) : List Message :=
  (b.header.map (b.hpkt conf)).toList ++
    match b.coheader with
    | some coheader => [b.acopkt conf coheader]
    | none => dummies

def HeaderPart (conf : LiveConf) (b : Broadcast) (sent : List Message) : Prop :=
  sent = [] ∨ sent = (b.header.map (b.hpkt conf)).toList

def Dummies (conf : LiveConf) (b : Broadcast) (dummy : Bool) (dummies : List Message) : Prop :=
  dummies = [] ∨ (dummy = true ∧ dummies = [b.aapkt conf])

theorem sendCoheader_cases (conf : LiveConf) (b : Broadcast) (env : SendEnv) (dummy : Bool) (c : Ctx) :
    ∃ out sent, out.accepted = c.out.accepted ++ sent ∧ (c.out.destroyed = true → out.destroyed = true) ∧
      ((sendCoheader conf b env dummy c = (false,{c with out}) ∧ sent = []) ∨
        (sendCoheader conf b env dummy c = (true,{c with out}) ∧ ∃ dummies, Dummies conf b dummy dummies ∧
          sent = match b.coheader with
            | some coheader => [b.acopkt conf coheader]
            | none => dummies)) := by
  unfold sendCoheader
  cases b.coheader with
  | some coheader =>
    rcases offer_cases c (b.acopkt conf coheader) 0 env.coheader with ⟨out,sent,offered⟩ | ⟨refused,_⟩
    · exact ⟨out,_,offered.log,offered.destroyed,.inr ⟨sent,[],.inl rfl,rfl⟩⟩
    · exact ⟨c.out,[],by simp,id,.inl ⟨refused,rfl⟩⟩
  | none =>
    cases dummy with
    | false => exact ⟨c.out,[],by simp,id,.inr ⟨rfl,[],.inl rfl,rfl⟩⟩
    | true =>
      rcases offer_cases c (b.aapkt conf) 0 env.dummy with ⟨out,sent,offered⟩ | ⟨refused,_⟩
      · exact ⟨out,_,offered.log,offered.destroyed,.inr ⟨by simp [sent],_,.inr ⟨rfl,rfl⟩,rfl⟩⟩
      · exact ⟨c.out,[],by simp,id,.inr ⟨by simp [refused],[],.inl rfl,rfl⟩⟩

theorem sendHeaders_cases :
    ∃ out sent, out.accepted = c.out.accepted ++ sent ∧ (c.out.destroyed = true → out.destroyed = true) ∧
      ((sendHeaders conf b env dummy c = (false,{c with out}) ∧ HeaderPart conf b sent) ∨
        (sendHeaders conf b env dummy c = (true,{c with out}) ∧
          ∃ dummies, Dummies conf b dummy dummies ∧ sent = headerMessages conf b dummies)) := by
  unfold sendHeaders
  cases head : b.header with
  | none =>
    obtain ⟨out,sent,log,gone,⟨stopped,rfl⟩ | ⟨done,dummies,shape,rfl⟩⟩ := sendCoheader_cases conf b env dummy c
    · exact ⟨out,[],log,gone,.inl ⟨stopped,.inl rfl⟩⟩
    · exact ⟨out,_,log,gone,.inr ⟨done,dummies,shape,by simp [headerMessages,head]⟩⟩
  | some header =>
    dsimp only
    rcases offer_cases c (b.hpkt conf header) 0 env.header with ⟨first,sent,offered⟩ | ⟨refused,_⟩
    · rw [sent]
      obtain ⟨out,later,log,gone,outcome⟩ := sendCoheader_cases conf b env dummy {c with out:=first}
      refine ⟨out,b.hpkt conf header::later,by rw [log,offered.log]; simp,fun was => gone (offered.destroyed was),?_⟩
      rcases outcome with ⟨stopped,rfl⟩ | ⟨done,dummies,shape,rfl⟩
      · exact .inl ⟨stopped,.inr (by simp [head])⟩
      · exact .inr ⟨done,dummies,shape,by simp [headerMessages,head]⟩
    · exact ⟨c.out,[],by simp,id,.inl ⟨by rw [refused],.inl rfl⟩⟩

-- The absolute packet and, after it, the dummy audio are both taken.
def dummyFollows (conf : LiveConf) (b : Broadcast) (env : SendEnv) (o : Output Message) : Bool :=
  match sendMessage o (b.apkt conf) b.prio env.packet with
  | (.again,_) => false
  | (.ok,next) => (sendMessage next (b.aapkt conf) 0 env.dummy).1 == .ok

-- Everything the loop body can do to one subscriber; `out` is its session after the sends.
inductive Visited (conf : LiveConf) (b : Broadcast) (env : SendEnv) (c1 : Ctx) : Ctx → Prop where
  | relative (on : (c1.cs b.csidx).active = true) (offered : Offered c1 (b.rpkt conf) out) :
      Visited conf b env c1 (({c1 with out} : Ctx).setCs b.csidx
        {c1.cs b.csidx with timestamp:=(c1.cs b.csidx).timestamp+b.delta})
  | dropped (on : (c1.cs b.csidx).active = true) (crowded : full c1.out b.prio = true)
      (log : out.accepted = c1.out.accepted) (gone : c1.out.destroyed = true ∨ b.mandatory = true → out.destroyed = true) :
      Visited conf b env c1 (({c1 with out,ndropped:=c1.ndropped+1} : Ctx).setCs b.csidx
        {c1.cs b.csidx with dropped:=(c1.cs b.csidx).dropped+b.delta})
  | waiting (off : (c1.cs b.csidx).active = false) :
      Visited conf b env c1 (c1.mark b.csidx)
  | refused (off : (c1.cs b.csidx).active = false) (part : HeaderPart conf b sent)
      (log : out.accepted = c1.out.accepted ++ sent) (gone : c1.out.destroyed = true → out.destroyed = true) :
      Visited conf b env c1 {c1.mark b.csidx with out}
  | opened (off : (c1.cs b.csidx).active = false) (ready : waits conf b c1 = false)
      (shape : Dummies conf b (dummyAudio conf b c1) dummies) (present : b.header.isSome = true ∨ b.coheader.isSome = true)
      (log : out.accepted = c1.out.accepted ++ headerMessages conf b dummies ++ [b.rpkt conf])
      (gone : c1.out.destroyed = true → out.destroyed = true) :
      Visited conf b env c1 (({c1.mark b.csidx with out} : Ctx).setCs b.csidx
        {c1.cs b.csidx with active:=true,timestamp:=b.lh.timestamp+b.delta})
  | headersOnly (off : (c1.cs b.csidx).active = false) (ready : waits conf b c1 = false)
      (shape : Dummies conf b (dummyAudio conf b c1) dummies) (present : b.header.isSome = true ∨ b.coheader.isSome = true)
      (sent : sendHeaders conf b env (dummyAudio conf b c1) (c1.mark b.csidx) = (true,{c1.mark b.csidx with out}))
      (crowded : full out b.prio = true)
      (log : out.accepted = c1.out.accepted ++ headerMessages conf b dummies)
      (gone : c1.out.destroyed = true → out.destroyed = true) :
      Visited conf b env c1 (({c1.mark b.csidx with out,ndropped:=c1.ndropped+1} : Ctx).setCs b.csidx
        {c1.cs b.csidx with active:=true,timestamp:=b.lh.timestamp,dropped:=(c1.cs b.csidx).dropped+b.delta})
  | absolute (off : (c1.cs b.csidx).active = false) (ready : waits conf b c1 = false)
      (plain : b.header = none ∧ b.coheader = none) (log : out.accepted = c1.out.accepted ++ b.apkt conf::
        if dummyAudio conf b c1 && dummyFollows conf b env c1.out then [b.aapkt conf] else [])
      (gone : c1.out.destroyed = true → out.destroyed = true) :
      Visited conf b env c1 (({c1.mark b.csidx with out} : Ctx).setCs b.csidx
        {c1.cs b.csidx with active:=true,timestamp:=b.ch.timestamp})

theorem sendRelative_cases (conf : LiveConf) (b : Broadcast) (env : SendEnv) (c : Ctx) :
    (∃ out, Offered c (b.rpkt conf) out ∧ sendRelative conf b env c = ({c with out} : Ctx).setCs b.csidx
      {c.cs b.csidx with timestamp:=(c.cs b.csidx).timestamp+b.delta}) ∨
    (full c.out b.prio = true ∧ ∃ out, out.accepted = c.out.accepted ∧
      (c.out.destroyed = true ∨ b.mandatory = true → out.destroyed = true) ∧ (b.mandatory = false → out = c.out) ∧
      sendRelative conf b env c = ({c with out,ndropped:=c.ndropped+1} : Ctx).setCs b.csidx
        {c.cs b.csidx with dropped:=(c.cs b.csidx).dropped+b.delta}) := by
  unfold sendRelative
  rcases offer_cases c (b.rpkt conf) b.prio env.packet with ⟨out,sent,offered⟩ | ⟨refused,crowded⟩
  · exact .inl ⟨out,offered,by rw [sent]⟩
  · rw [refused]
    refine .inr ⟨crowded,?_⟩
    cases mandatory : b.mandatory with
    | true =>
      exact ⟨OutQueue.finalize c.out,by simp [OutQueue.finalize],fun _ => rfl,by simp,by simp [Ctx.finalize,Ctx.setCs]⟩
    | false => exact ⟨c.out,rfl,by simp,fun _ => rfl,by simp [Ctx.setCs]⟩

theorem sendAbsolute_cases (conf : LiveConf) (b : Broadcast) (env : SendEnv) (dummy : Bool) (c : Ctx) :
    (sendAbsolute conf b env dummy c = c ∧ dummyFollows conf b env c.out = false) ∨
    ∃ out, out.accepted = c.out.accepted ++ b.apkt conf::
        (if dummy && dummyFollows conf b env c.out then [b.aapkt conf] else []) ∧
      (c.out.destroyed = true → out.destroyed = true) ∧
      sendAbsolute conf b env dummy c = ({c with out} : Ctx).setCs b.csidx
        {c.cs b.csidx with active:=true,timestamp:=b.ch.timestamp} := by
  unfold sendAbsolute dummyFollows Ctx.offer
  rcases sendMessage_cases c.out (b.apkt conf) b.prio env.packet with ⟨out,sent,log,_,_,gone⟩ | ⟨refused,_⟩
  · right
    rw [sent]
    cases dummy with
    | false => exact ⟨out,by simpa using log,gone,rfl⟩
    | true =>
      rcases sendMessage_cases out (b.aapkt conf) 0 env.dummy with ⟨final,later,second,_,_,after⟩ | ⟨refused,_⟩
      · refine ⟨final,?_,fun was => after (gone was),?_⟩
        · simp [later,second,log]
        · simp [activate,Ctx.setCs,later]
      · refine ⟨out,?_,gone,?_⟩
        · simpa [refused] using log
        · simp [activate,Ctx.setCs,refused]
  · exact .inl ⟨by rw [refused]; rfl,by rw [refused]⟩

theorem waits_mandatory (ready : waits conf b c = false) : b.mandatory = false := by
  cases mandatory : b.mandatory with
  | true => simp [waits,mandatory] at ready
  | false => rfl

theorem broadcast_cases :
    ((c.paused = true ∨ c.hls = true) ∧ broadcast conf b env c = c) ∨
    ∃ c1, Primed conf b env c c1 ∧ Visited conf b env c1 (broadcast conf b env c) := by
  unfold broadcast
  split
  · rename_i off
    exact .inl ⟨by simpa using off,rfl⟩
  · rename_i playing
    have ready := primed conf b env c (by simpa using playing)
    refine .inr ⟨_,ready,?_⟩
    generalize syncStream conf b (sendMeta b env c) = c1
    dsimp only
    cases on : (c1.cs b.csidx).active with
    | true =>
      rw [if_pos rfl]
      rcases sendRelative_cases conf b env c1 with ⟨out,offered,sent⟩ | ⟨crowded,out,log,gone,_,lost⟩
      · rw [sent]; exact .relative on offered
      · rw [lost]; exact .dropped on crowded log gone
    | false =>
      rw [if_neg (by simp)]
      have waits_mark : waits conf b (c1.mark b.csidx) = waits conf b c1 := rfl
      have dummy_mark : dummyAudio conf b (c1.mark b.csidx) = dummyAudio conf b c1 := rfl
      rw [waits_mark,dummy_mark]
      cases waiting : waits conf b c1 with
      | true => rw [if_pos rfl]; exact .waiting on
      | false =>
        rw [if_neg (by simp)]
        split
        · rename_i present
          have present : b.header.isSome = true ∨ b.coheader.isSome = true := by simpa using present
          obtain ⟨out,sent,log,gone,⟨stopped,part⟩ | ⟨done,dummies,shape,rfl⟩⟩ :=
            sendHeaders_cases
          · rw [stopped]; exact .refused on part log gone
          · rw [done]
            rcases sendRelative_cases conf b env (activate b b.lh.timestamp {c1.mark b.csidx with out})
              with ⟨final,offered,relative⟩ | ⟨crowded,final,_,_,same,lost⟩
            · have logged : final.accepted = c1.out.accepted ++ headerMessages conf b dummies ++ [b.rpkt conf] := by
                rw [offered.log]; exact congrArg (· ++ _) log
              dsimp only
              rw [relative]
              have result : Visited conf b env c1 _ := .opened on waiting shape present logged
                (fun was => offered.destroyed (gone was))
              simpa [activate,Ctx.setCs,Ctx.mark] using result
            · obtain rfl := same (waits_mandatory waiting)
              dsimp only
              rw [lost]
              have result : Visited conf b env c1 _ := .headersOnly on waiting shape present done crowded log gone
              simpa [activate,Ctx.setCs,Ctx.mark] using result
        · rename_i plain
          rcases sendAbsolute_cases conf b env (dummyAudio conf b c1) (c1.mark b.csidx)
            with ⟨same,_⟩ | ⟨out,log,gone,sent⟩
          · rw [same]
            have result : Visited conf b env c1 _ := .waiting on
            exact result
          · rw [sent]
            exact .absolute on waiting (by simpa using plain) log gone

-- What every other operation does: notices only, and streams that are kept or both reset.
structure Calm (c next : Ctx) : Prop where
  id : next.id = c.id
  hls : next.hls = c.hls
  since : next.since = c.since
  quiet : Quiet c.out next.out
  streams : next.cs = c.cs ∨ next.cs = c.reset.cs

theorem Calm.refl (c : Ctx) : Calm c c := ⟨rfl,rfl,rfl,Quiet.refl _,.inl rfl⟩

variable {next : Ctx}

theorem Calm.trans (left : Calm c middle) (right : Calm middle next) : Calm c next := by
  refine ⟨right.id.trans left.id,right.hls.trans left.hls,right.since.trans left.since,left.quiet.trans right.quiet,?_⟩
  rcases left.streams with same | reset <;> rcases right.streams with same' | reset'
  · exact .inl (same'.trans same)
  · exact .inr (by rw [reset']; simp [Ctx.reset,same])
  · exact .inr (same'.trans reset)
  · exact .inr (by rw [reset']; simp [Ctx.reset,reset])

theorem calm_of_quiet (quiet : Quiet c.out out) : Calm c {c with out} := ⟨rfl,rfl,rfl,quiet,.inl rfl⟩

theorem finalize_calm (c : Ctx) : Calm c c.finalize := calm_of_quiet finalize_quiet

theorem offer_calm : Calm c (c.offer (noticeOf notice text) prio socket).2 := by
  obtain ⟨flag,out,sent,quiet⟩ := offer_notice c notice text prio socket
  rw [sent]
  exact calm_of_quiet quiet

theorem switch_calm : Calm c (switch conf active env c) := by
  rcases switch_cases with ⟨_,same⟩ | ⟨_,out,quiet,⟨_,lost⟩ | reset⟩
  · rw [same]; exact .refl _
  · rw [lost]; exact ⟨rfl,rfl,rfl,quiet,.inl rfl⟩
  · rw [reset]; exact ⟨rfl,rfl,rfl,quiet,.inr rfl⟩

theorem pauseSubscriber_calm : Calm c (pauseSubscriber conf pause env c) := by
  unfold pauseSubscriber noticeMessage
  split
  · exact .refl _
  · obtain ⟨flag,out,sent,quiet⟩ := offer_notice c (if pause then .pauseNotify else .unpauseNotify)
      (conf.text (if pause then .pauseNotify else .unpauseNotify)) 0 (env.status 3)
    rw [sent]
    cases flag with
    | false => exact (calm_of_quiet quiet).trans (finalize_calm _)
    | true =>
      have named : Calm c {c with out,paused:=pause} := ⟨rfl,rfl,rfl,quiet,.inl rfl⟩
      exact named.trans switch_calm

theorem switchPublisher_subscriber (member : next ∈ (switchPublisher conf active env publisher s).2.subscribers) :
    ∃ c ∈ s.subscribers, Calm c next := by
  unfold switchPublisher at member
  split at member
  · exact ⟨next,member,.refl _⟩
  · obtain ⟨c,old,rfl⟩ := mem_map.mp member
    exact ⟨c,old,switch_calm⟩

theorem onAir_subscriber (member : next ∈ (onAir conf s publisher packet env).2.1.subscribers) :
    ∃ c ∈ s.subscribers, Calm c next := by
  unfold onAir at member
  dsimp only at member
  split at member
  · exact ⟨next,member,.refl _⟩
  · exact switchPublisher_subscriber member

theorem modify_subscriber {s : Stream} {id : Nat} (calm : ∀ c, Calm c (f c)) (member : next ∈ (s.modify id f).subscribers) :
    ∃ c ∈ s.subscribers, Calm c next := by
  obtain ⟨c,old,rfl⟩ := mem_map.mp member
  refine ⟨c,old,?_⟩
  split
  · exact calm c
  · exact .refl c

theorem leave_subscriber {id : Nat} (member : next ∈ (leave conf s id env).subscribers) : ∃ c ∈ s.subscribers, Calm c next := by
  unfold leave at member
  split at member
  · split at member
    · obtain ⟨c,switched,rfl⟩ := mem_map.mp member
      obtain ⟨old,before,calm⟩ := switchPublisher_subscriber switched
      refine ⟨old,before,calm.trans ?_⟩
      split
      · exact finalize_calm c
      · exact .refl c
    · exact ⟨next,(mem_filter.mp member).1,.refl _⟩
  · exact ⟨next,(mem_filter.mp member).1,.refl _⟩

theorem sendPlayStatus_quiet : ∃ out, Quiet c.out out ∧ sendPlayStatus conf env c = {c with out} := by
  obtain ⟨_,first,sent,quiet⟩ := offer_notice c .playStart (conf.text .playStart) 0 (env.status 3)
  obtain ⟨_,second,told,later⟩ := offer_notice {c with out:=first} .sampleAccess (conf.text .sampleAccess) 0 (env.status 4)
  refine ⟨second,quiet.trans later,?_⟩
  simp only [sendPlayStatus,noticeMessage,sent,told]

theorem joinPlayer_calm (conf : LiveConf) (active : Bool) (j : Joiner) (env : SendEnv) :
    Calm j.ctx (joinPlayer conf active j env) := by
  unfold joinPlayer
  have started : Calm j.ctx (if active && !j.out.hls then switch conf true env j.ctx else j.ctx) := by
    split
    · exact switch_calm
    · exact .refl _
  generalize (if active && !j.out.hls then switch conf true env j.ctx else j.ctx) = c at started ⊢
  have named : Calm j.ctx {c with silent:=j.silent} := started.trans ⟨rfl,rfl,rfl,Quiet.refl _,.inl rfl⟩
  dsimp only
  split
  · obtain ⟨out,quiet,told⟩ := sendPlayStatus_quiet
    rw [told]
    exact named.trans (calm_of_quiet quiet)
  · exact named

theorem pausePublisher_subscriber (member : next ∈ (pausePublisher conf pause env publisher s).subscribers) :
    ∃ c ∈ s.subscribers, Calm c next := by
  unfold pausePublisher at member
  split at member
  · exact ⟨next,member,.refl _⟩
  · split at member
    · exact ⟨next,member,.refl _⟩
    · exact switchPublisher_subscriber member

-- It was there before, has just joined, or was visited by the broadcast loop.
theorem step_subscriber {conf : LiveConf} {s : Stream} (member : next ∈ (step conf s event).subscribers) :
    (∃ c ∈ s.subscribers, Calm c next) ∨ (∃ j : Joiner, Calm j.ctx next) ∨
    ∃ packet env later publisher, event = .packet packet env later ∧ s.publisher = some publisher ∧
      ∃ c ∈ (onAir conf s publisher packet env).2.1.subscribers,
        next = broadcast conf (onAir conf s publisher packet env).2.2 (later c.id) c := by
  cases event with
  | publish j =>
    left
    unfold step publish at member
    dsimp only at member
    split at member <;> exact ⟨next,member,.refl _⟩
  | play j env =>
    unfold step play at member
    dsimp only at member
    split at member
    · exact .inl ⟨next,member,.refl _⟩
    · rcases mem_cons.mp member with rfl | old
      · exact .inr (.inl ⟨j,joinPlayer_calm conf _ j env⟩)
      · exact .inl ⟨next,old,.refl _⟩
  | close id env =>
    left
    unfold step close at member
    dsimp only at member
    split at member
    · cases member
    · exact leave_subscriber member
  | pause id on env =>
    left
    have visited : next ∈ s.subscribers.map (fun c => if c.id = id then pauseSubscriber conf on (env id) c else c) →
        ∃ c ∈ s.subscribers, Calm c next := by
      intro member
      obtain ⟨c,old,rfl⟩ := mem_map.mp member
      refine ⟨c,old,?_⟩
      split
      · exact pauseSubscriber_calm
      · exact .refl c
    unfold step at member
    dsimp only at member
    split at member
    · split at member
      · exact pausePublisher_subscriber member
      · exact visited member
    · exact visited member
  | streamBegin env | streamEof env =>
    left
    unfold step at member
    dsimp only at member
    split at member
    · split at member
      · exact ⟨next,member,.refl _⟩
      · exact switchPublisher_subscriber member
    · exact ⟨next,member,.refl _⟩
  | metadata text version => exact .inl ⟨next,member,.refl _⟩
  | packet packet env later =>
    unfold step liveAv at member
    dsimp only at member
    split at member
    · exact .inl ⟨next,member,.refl _⟩
    · rename_i publisher publishing
      obtain ⟨c,old,rfl⟩ := mem_map.mp member
      exact .inr (.inr ⟨packet,env,later,publisher,rfl,publishing,c,old,rfl⟩)
  | output id timedout socket =>
    exact .inl (modify_subscriber (fun c => calm_of_quiet send_quiet) member)
  | reply id prio socket => exact .inl (modify_subscriber (fun c => offer_calm) member)
  | lost id => exact .inl (modify_subscriber finalize_calm member)

def headerOf (codec : Option CodecCtx) (type : MediaType) : Option (List UInt8) := codec.bind (·.header type)

structure Continued (p next : Ctx) : Prop where
  cs : next.cs = p.cs
  headers : ∀ type, headerOf next.codec type = headerOf p.codec type

theorem Continued.refl (p : Ctx) : Continued p p := ⟨rfl,fun _ => rfl⟩

theorem switchPublisher_continued :
    (switchPublisher conf active env p s).1.cs = p.cs ∧ (switchPublisher conf active env p s).1.codec = p.codec := by
  unfold switchPublisher
  split <;> exact ⟨rfl,rfl⟩

theorem onAir_continued (conf : LiveConf) (s : Stream) (p : Ctx) (packet : Packet) (env : Nat → SendEnv) :
    (onAir conf s p packet env).1.cs = p.cs ∧
    (onAir conf s p packet env).1.codec = some (codecAv p.codec packet) := by
  unfold onAir
  dsimp only
  split
  · exact ⟨rfl,rfl⟩
  · exact switchPublisher_continued

theorem leave_publisher {id : Nat} (found : (leave conf s id env).publisher = some next) : s.publisher = some next := by
  unfold leave at found
  split at found
  · split at found
    · unfold switchPublisher at found
      split at found <;> cases found
    · exact found
  · exact found

theorem modify_publisher {s : Stream} {id : Nat}
    (found : (s.modify id f).publisher = some next) (kept : ∀ c, Continued c (f c)) :
    ∃ p, s.publisher = some p ∧ Continued p next := by
  obtain ⟨p,old,rfl⟩ := Option.map_eq_some_iff.mp found
  refine ⟨p,old,?_⟩
  split
  · exact kept p
  · exact .refl p

theorem pausePublisher_continued (publishing : s.publisher = some p)
    (found : (pausePublisher conf pause env p s).publisher = some next) : Continued p next := by
  unfold pausePublisher noticeMessage at found
  split at found
  · cases publishing.symm.trans found
    exact .refl _
  · obtain ⟨flag,out,sent,_⟩ := offer_notice p (if pause then .pauseNotify else .unpauseNotify)
      (conf.text (if pause then .pauseNotify else .unpauseNotify)) 0 ((env p.id).status 3)
    rw [sent] at found
    cases flag with
    | false =>
      cases found
      exact ⟨rfl,fun _ => rfl⟩
    | true =>
      have equal : (switchPublisher conf (!pause) env {p with out,paused:=pause} s).1 = next := Option.some.inj found
      obtain ⟨cs,codec⟩ := switchPublisher_continued
      rw [equal] at cs codec
      exact ⟨cs,fun _ => by rw [codec]⟩

-- Only a packet changes the publisher's chunk streams or a codec header.
theorem step_publisher (found : (step conf s event).publisher = some next) :
    (∃ j : Joiner, s.publisher = none ∧ next.cs = j.ctx.cs) ∨ (∃ p, s.publisher = some p ∧ Continued p next) ∨
    ∃ packet env later p, event = .packet packet env later ∧ s.publisher = some p ∧
      next.codec = some (codecAv p.codec packet) ∧
      next.cs = Function.update p.cs (chunkIndex conf packet.type)
        {p.cs (chunkIndex conf packet.type) with active:=true,timestamp:=packet.timestamp} := by
  have same : s.publisher = some next → ∃ p, s.publisher = some p ∧ Continued p next := fun found => ⟨next,found,.refl _⟩
  cases event with
  | publish j =>
    unfold step publish at found
    dsimp only at found
    split at found
    · exact .inr (.inl (same found))
    · rename_i free
      have free : s.joined j.id = false ∧ s.publisher = none := by simpa using free
      cases found
      exact .inl ⟨j,free.2,rfl⟩
  | play j env =>
    unfold step play at found
    dsimp only at found
    split at found <;> exact .inr (.inl (same found))
  | close id env =>
    unfold step close at found
    dsimp only at found
    split at found
    · cases found
    · exact .inr (.inl (same (leave_publisher found)))
  | pause id on env =>
    unfold step at found
    dsimp only at found
    split at found
    · rename_i p publishing
      split at found
      · exact .inr (.inl ⟨p,publishing,pausePublisher_continued publishing found⟩)
      · exact .inr (.inl (same found))
    · exact .inr (.inl (same found))
  | streamBegin env | streamEof env =>
    unfold step at found
    dsimp only at found
    split at found
    · rename_i p publishing
      split at found
      · exact .inr (.inl (same found))
      · obtain ⟨cs,codec⟩ := switchPublisher_continued
        rw [Option.some.inj found] at cs codec
        exact .inr (.inl ⟨p,publishing,cs,fun _ => by rw [codec]⟩)
    · exact .inr (.inl (same found))
  | metadata text version =>
    obtain ⟨p,old,rfl⟩ := Option.map_eq_some_iff.mp found
    refine .inr (.inl ⟨p,old,rfl,fun type => ?_⟩)
    cases p.codec <;> cases type <;> rfl
  | packet packet env later =>
    unfold step liveAv at found
    dsimp only at found
    split at found
    · exact .inr (.inl (same found))
    · rename_i p publishing
      obtain ⟨cs,codec⟩ := onAir_continued conf s p packet env
      refine .inr (.inr ⟨packet,env,later,p,rfl,publishing,?_⟩)
      rw [← Option.some.inj found]
      refine ⟨codec,?_⟩
      rw [Ctx.setCs,cs]
      rfl
  | output id timedout socket => exact .inr (.inl (modify_publisher found fun _ => ⟨rfl,fun _ => rfl⟩))
  | reply id prio socket => exact .inr (.inl (modify_publisher found fun _ => ⟨rfl,fun _ => rfl⟩))
  | lost id => exact .inr (.inl (modify_publisher found fun _ => ⟨rfl,fun _ => rfl⟩))

def quietEnv : SendEnv := ⟨[],fun _ => [],[],[],[],[],[]⟩

def plainConf : LiveConf :=
  {cscf:=⟨32,4096,1048576,true,true⟩,interleave:=false,waitKey:=true,waitVideo:=false,sync:=300,playRestart:=false,
    publishNotify:=false,idleStreams:=true,text:=fun _ => ⟨[0],[]⟩}

def joiner (id outQueue : Nat) : Joiner := ⟨id,true,false,false,OutQueue.initial false outQueue 0 false,none⟩

def videoPacket (first packetType : UInt8) (timestamp : UInt32) : Packet := ⟨.video,timestamp,⟨[first,packetType,2],[]⟩,0⟩

end NgxRtmp.Live
