import NgxRtmp.BillingSync
import NgxRtmp.HlsRestoreRuns

namespace NgxRtmp.Billing
open Lines Paths BillingDaemon List
open HlsRestore (bytes decimal digits_shape digits_value)

section
variable (memory : Memory)

def visitAll (bd : Bd) (streams : List Stream) : Bd := streams.foldl (fun bd s => (visit memory bd s).1) bd

theorem visitAll_append (bd : Bd) (first second : List Stream) :
    visitAll memory bd (first ++ second) = visitAll memory (visitAll memory bd first) second := by
  simp [visitAll]

theorem visit_clears (bd : Bd) (s : Stream) : (visit memory bd s).2 = s.clear := by
  simp [visit,credit_clears]

theorem through_visits {f : Bd → α → Bd × α}
    (each : ∀ bd x, f bd x = (visitAll memory bd (held x),cleared x)) (items : List α) (bd : Bd) :
    through f bd items = (visitAll memory bd (items.flatMap held),items.map cleared) := by
  induction items generalizing bd with
  | nil => rfl
  | cons x items ih => simp [through,each,ih,visitAll_append]

def Application.cleared (app : Application) : Application :=
  if app.live then {app with streams:=app.streams.map (·.map Stream.clear)} else app

def Server.cleared (s : Server) : Server := ⟨s.applications.map Application.cleared⟩

theorem through_visit (bucket : List Stream) (bd : Bd) :
    through (visit memory) bd bucket = (visitAll memory bd bucket,bucket.map Stream.clear) := by
  have each : ∀ bd s, visit memory bd s = (visitAll memory bd [s],s.clear) := by
    intro bd s
    rw [← visit_clears memory bd s]
    rfl
  rw [through_visits memory each bucket bd]
  simp

theorem billingLive_visits (bd : Bd) (app : Application) :
    billingLive memory bd app = (visitAll memory bd app.visited,app.cleared) := by
  unfold billingLive Application.visited Application.cleared
  by_cases on : app.live = true
  · have buckets : through (through (visit memory)) bd app.streams =
        (visitAll memory bd (app.streams.flatMap id),app.streams.map (·.map Stream.clear)) :=
      through_visits memory (fun bd bucket => through_visit memory bucket bd) app.streams bd
    rw [if_pos on,if_pos on,if_pos on,buckets]
    simp [flatMap_id]
  · rw [if_neg on,if_neg on,if_neg on]
    rfl

theorem billingServer_visits (bd : Bd) (s : Server) :
    billingServer memory bd s = (visitAll memory bd (s.applications.flatMap (·.visited)),s.cleared) := by
  unfold billingServer
  rw [through_visits memory (billingLive_visits memory)]
  rfl

theorem gather_visits (st : State) :
    gather memory st = (visitAll memory {st.bd with old:=none} (visited st.servers),st.servers.map Server.cleared) := by
  unfold gather visited
  rw [through_visits memory (billingServer_visits memory)]

theorem visitAll_entries (streams : List Stream) :
    ∀ bd, (visitAll memory bd streams).entries = creditAll memory.beyond bd.entries streams := by
  induction streams with
  | nil => intro bd; rfl
  | cons s streams ih => intro bd; exact ih (visit memory bd s).1

end

theorem credit_grows : entries.length ≤ (credit beyond entries s).1.length := by
  rcases credit_target beyond entries s with ⟨e,_,result⟩ | ⟨_,result⟩ <;> rw [result] <;> simp

theorem creditAll_grows (beyond : Nat → Nat → UInt8) (streams : List Stream) :
    ∀ entries, entries.length ≤ (creditAll beyond entries streams).length := by
  induction streams with
  | nil => intro entries; exact le_rfl
  | cons s streams ih => intro entries; exact le_trans credit_grows (ih _)

-- With room for the new entries, or a pool that extends the array, srv_bd stays right.
theorem visitAll_unmoved {bd : Bd}
    (room : (creditAll memory.beyond bd.entries streams).length ≤ bd.nalloc ∨ ∀ n, memory.inPlace n = true) :
    (visitAll memory bd streams).old = bd.old := by
  induction streams generalizing bd with
  | nil => rfl
  | cons s streams ih =>
    have kept : (visit memory bd s).1.old = bd.old ∧
        ((creditAll memory.beyond (visit memory bd s).1.entries streams).length ≤ (visit memory bd s).1.nalloc ∨
          ∀ n, memory.inPlace n = true) := by
      have later := creditAll_grows memory.beyond streams (credit memory.beyond bd.entries s).1
      unfold visit grow
      by_cases more : bd.entries.length < (credit memory.beyond bd.entries s).1.length
      · rcases room with short | extends_
        · have notFull : bd.entries.length ≠ bd.nalloc := by
            have whole : (creditAll memory.beyond (credit memory.beyond bd.entries s).1 streams).length ≤ bd.nalloc := short
            omega
          simp only [if_pos more,if_neg notFull]
          exact ⟨trivial,.inl short⟩
        · by_cases full : bd.entries.length = bd.nalloc
          · simp only [if_pos more,if_pos full,extends_,if_true]
            exact ⟨trivial,.inr fun _ => trivial⟩
          · simp only [if_pos more,if_neg full]
            exact ⟨trivial,.inr extends_⟩
      · simp only [if_neg more]
        exact ⟨trivial,room⟩
    exact (ih kept.2).trans kept.1

def held (side : Side) (entries : List Entry) : Nat := (entries.map fun e => (e.bytes side).toNat).sum

theorem add_bytes : (add e s).bytes side = e.bytes side+s.bytes side := by
  cases side <;> rfl

theorem pushed_bytes : (pushed s).bytes side = s.bytes side := by
  cases side <;> rfl

theorem held_set (there : entries[k]? = some e)
    (small : held side entries+(s.bytes side).toNat < 2^64) :
    held side (entries.set k (add e s)) = held side entries+(s.bytes side).toNat := by
  induction entries generalizing k with
  | nil => simp at there
  | cons first entries ih =>
    unfold held at small ih ⊢
    simp only [map_cons,sum_cons] at small
    cases k with
    | zero =>
      cases there
      simp only [set_cons_zero,map_cons,sum_cons,add_bytes,UInt64.toNat_add]
      rw [Nat.mod_eq_of_lt (by omega)]
      omega
    | succ k =>
      simp only [set_cons_succ,map_cons,sum_cons]
      rw [ih there (by omega)]
      omega

theorem creditAll_held (small : held side entries+total side streams < 2^64) :
    held side (creditAll beyond entries streams) = held side entries+total side streams := by
  induction streams generalizing entries with
  | nil => rfl
  | cons s streams ih =>
    have parts : total side (s::streams) = (s.bytes side).toNat+total side streams := by simp [total]
    rw [parts] at small ⊢
    have first : held side (credit beyond entries s).1 = held side entries+(s.bytes side).toNat := by
      rcases credit_target beyond entries s with ⟨e,there,result⟩ | ⟨_,result⟩
      · rw [result]
        exact held_set there (by omega)
      · rw [result]
        simp [held,pushed_bytes]
    change held side (creditAll beyond (credit beyond entries s).1 streams) = _
    rw [ih (by rw [first]; omega),first]
    omega

theorem digit_of_decimal (inside : b ∈ decimal n) : 48 ≤ b.toNat ∧ b.toNat ≤ 57 :=
  (digits_shape 20 n (by decide)).2.2 b inside

theorem decimal_clean (n : Nat) : tab ∉ decimal n ∧ newline ∉ decimal n := by
  refine ⟨?_,?_⟩ <;>
  · intro inside
    have digit := digit_of_decimal inside
    simp [tab,newline] at digit

theorem longU_clean (n : UInt64) : tab ∉ longU n ∧ newline ∉ longU n := by
  have small := decimal_clean n.toNat
  have negative := decimal_clean (2^64-n.toNat)
  unfold longU
  split
  · simp [tab,newline] at small ⊢
    exact small
  · simp [tab,newline] at negative ⊢
    exact negative

theorem strtoul_longU (small : n.toNat < 2^63) : strtoul (longU n) = n := by
  have shape := digits_shape 20 n.toNat (by decide)
  have all : ∀ b ∈ decimal n.toNat, isDigit b = true := by
    intro b inside
    have digit := digit_of_decimal inside
    simp only [isDigit,UInt8.le_iff_toNat_le]
    exact decide_eq_true digit
  have value : (decimal n.toNat).foldl (fun n b => 10*n+(b.toNat-48)) 0 = n.toNat :=
    digits_value 20 n.toNat (by omega)
  have parsed : number (longU n) = (false,n.toNat) := by
    unfold longU
    rw [if_pos small]
    cases text : decimal n.toNat with
    | nil => exact absurd text shape.1
    | cons c rest =>
      have digit := digit_of_decimal (show c ∈ decimal n.toNat by rw [text]; exact mem_cons_self)
      have noSpace : isSpace c = false := by
        simp only [isSpace,UInt8.le_iff_toNat_le,← UInt8.toNat_inj]
        apply decide_eq_false
        simp
        omega
      have noSign : ¬(c = 43 ∨ c = 45) := by
        simp only [← UInt8.toNat_inj]
        simp
        omega
      rw [text] at all value
      have taken : ((c::rest) ++ [117]).takeWhile isDigit = c::rest := by
        rw [takeWhile_append_of_pos all]
        simp [isDigit]
      unfold number
      simp only [cons_append,dropWhile_cons,noSpace,Bool.false_eq_true,if_false,List.head?_cons,
        Option.some.injEq,noSign]
      rw [cons_append] at taken
      rw [taken,value]
      have positive : c ≠ 45 := fun same => noSign (.inr same)
      simp [positive]
  have bound := n.toNat_lt
  unfold strtoul
  simp only [parsed]
  rw [if_neg (by omega)]
  simp

def Legible (e : Entry) : Prop := e.name = some e.text ∧ tab ∉ e.text ∧ newline ∉ e.text

theorem line_clean (legible : Legible e) : newline ∉ line now interval e.text e := by
  have first := (decimal_clean now).2
  have second := (decimal_clean interval).2
  have incoming := (longU_clean e.bdIn).2
  have outgoing := (longU_clean e.bdOut).2
  have scheme : newline ∉ bytes "rtmp://" := by decide
  have sep : newline ≠ tab := by decide
  simp only [line,mem_append,mem_cons,not_or]
  exact ⟨first,sep,second,sep,⟨scheme,legible.2.2⟩,sep,incoming,sep,outgoing⟩

theorem line_reading (legible : Legible e) (small : ∀ side, (e.bytes side).toNat < 2^63) :
    ∃ data, reading (line now interval e.text e) = some data ∧ ∀ side, dataBytes data side = e.bytes side := by
  have named : tab ∉ bytes "rtmp://" ++ e.text := by
    rw [mem_append,not_or]
    exact ⟨by decide,legible.2.1⟩
  have fields : components tab (line now interval e.text e) =
      [decimal now,decimal interval,bytes "rtmp://" ++ e.text,longU e.bdIn,longU e.bdOut] := by
    unfold line
    rw [components_append,components_append,components_append,components_append,components_clean (decimal_clean now).1,
      components_clean (decimal_clean interval).1,components_clean named,components_clean (longU_clean e.bdIn).1,
      components_clean (longU_clean e.bdOut).1]
    rfl
  refine ⟨_,by rw [reading,fields,lineData],?_⟩
  intro side
  cases side with
  | incoming => exact strtoul_longU (small .incoming)
  | outgoing => exact strtoul_longU (small .outgoing)

theorem lines_unmoved (unmoved : bd.old = none)
    (legible : ∀ e ∈ bd.entries, Legible e) :
    lines memory now interval bd = bd.entries.map fun e => line now interval e.text e := by
  apply ext_getElem
  · simp [lines]
  · intro j inside _
    have place : j < bd.entries.length := by simpa [lines] using inside
    have own := (legible _ (getElem_mem place)).1
    simp [lines,shown,unmoved,shownName,place,own]

theorem reported_lines (legible : ∀ e ∈ entries, Legible e)
    (small : ∀ e ∈ entries, ∀ side, (e.bytes side).toNat < 2^63) :
    reported side (join newline (entries.map fun e => line now interval e.text e)) = held side entries := by
  have clean : ∀ text ∈ entries.map (fun e => line now interval e.text e), newline ∉ text := by
    intro text inside
    obtain ⟨e,present,rfl⟩ := mem_map.mp inside
    exact line_clean (legible e present)
  unfold reported held
  rw [components_join clean,dropLast_concat]
  clear clean
  induction entries with
  | nil => rfl
  | cons e entries ih =>
    obtain ⟨data,read,same⟩ := line_reading (legible e mem_cons_self) (small e mem_cons_self)
    have rest := ih (fun other inside => legible other (mem_cons_of_mem _ inside))
      (fun other inside => small other (mem_cons_of_mem _ inside))
    unfold readings at rest ⊢
    rw [map_cons,filterMap_cons_some read,map_cons,sum_cons,map_cons,sum_cons,rest,same]

theorem legible_pushed (printable : Printable s) : Legible (pushed s) := by
  obtain ⟨fits,noTab,noBreak⟩ := printable
  have whole : (pushed s).text = s.text := text_of_fit fits
  unfold Legible
  rw [whole]
  exact ⟨entryName_of_fit fits whole,noTab,noBreak⟩

theorem credit_legible (legible : ∀ e ∈ entries, Legible e)
    (printable : Printable s) : ∀ e ∈ (credit beyond entries s).1, Legible e := by
  intro e inside
  rcases credit_target beyond entries s with ⟨old,there,result⟩ | ⟨_,result⟩
  · rw [result] at inside
    rcases mem_or_eq_of_mem_set inside with kept | changed
    · exact legible e kept
    · rw [changed]
      exact legible old (mem_of_getElem? there)
  · rw [result] at inside
    rcases mem_append.mp inside with kept | new
    · exact legible e kept
    · rw [mem_singleton.mp new]
      exact legible_pushed printable

theorem creditAll_legible (printable : ∀ s ∈ streams, Printable s) (legible : ∀ e ∈ entries, Legible e) :
    ∀ e ∈ creditAll beyond entries streams, Legible e := by
  induction streams generalizing entries with
  | nil => exact legible
  | cons s streams ih =>
    exact ih (fun other inside => printable other (mem_cons_of_mem _ inside)) (credit_legible legible (printable s mem_cons_self))

theorem bytes_le_held (side : Side) (inside : e ∈ entries) : (e.bytes side).toNat ≤ held side entries := by
  induction entries with
  | nil => cases inside
  | cons first entries ih =>
    unfold held at ih ⊢
    rw [map_cons,sum_cons]
    rcases mem_cons.mp inside with rfl | inside
    · omega
    · have rest := ih inside
      omega

structure Settled (bd : Bd) : Prop where
  legible : ∀ e ∈ bd.entries, Legible e
  empty : ∀ side, held side bd.entries = 0

theorem held_cleared {entries : List Entry} : held side (entries.map clearEntry) = 0 := by
  induction entries with
  | nil => rfl
  | cons e entries ih =>
    unfold held at ih ⊢
    rw [map_cons,map_cons,sum_cons,ih]
    cases side <;> rfl

theorem total_cleared {streams : List Stream} : total side (streams.map Stream.clear) = 0 := by
  induction streams with
  | nil => rfl
  | cons s streams ih =>
    unfold total at ih ⊢
    rw [map_cons,map_cons,sum_cons,ih]
    cases side <;> rfl

theorem visited_cleared : visited (servers.map Server.cleared) = (visited servers).map Stream.clear := by
  have app : ∀ a : Application, a.cleared.visited = a.visited.map Stream.clear := by
    intro a
    unfold Application.visited Application.cleared
    by_cases on : a.live = true
    · simp [on,map_flatten]
    · simp [on]
  simp [visited,Server.cleared,flatMap_map,map_flatMap,app]

theorem sync_reports (settled : Settled st.bd)
    (small : ∀ side, pending side st.servers < 2^63) (calm : Calm interval st (.sync memory now)) :
    (∀ side, reported side (sync interval memory now st).2 = pending side st.servers) ∧
      (∀ side, pending side (sync interval memory now st).1.servers = 0) ∧ Settled (sync interval memory now st).1.bd := by
  obtain ⟨printable,room,fits⟩ := calm
  have unmoved : (visitAll memory {st.bd with old:=none} (visited st.servers)).old = none :=
    visitAll_unmoved room
  have entries := visitAll_entries memory (visited st.servers) {st.bd with old:=none}
  have legible : ∀ e ∈ (visitAll memory {st.bd with old:=none} (visited st.servers)).entries, Legible e := by
    rw [entries]
    exact creditAll_legible printable settled.legible
  have passed : ∀ side, held side (visitAll memory {st.bd with old:=none} (visited st.servers)).entries =
      pending side st.servers := by
    intro side
    have bound := small side
    have start := settled.empty side
    rw [entries,creditAll_held (by rw [start]; unfold pending at bound; omega),
      start,zero_add]
    rfl
  have bounded : ∀ e ∈ (visitAll memory {st.bd with old:=none} (visited st.servers)).entries,
      ∀ side, (e.bytes side).toNat < 2^63 := by
    intro e inside side
    have least := bytes_le_held side inside
    have bound := small side
    rw [passed] at least
    omega
  rw [gather_visits,lines_unmoved unmoved legible] at fits
  unfold sync
  rw [gather_visits]
  refine ⟨?_,?_,?_⟩
  · intro side
    simp only
    rw [lines_unmoved unmoved legible,take_of_length_le fits,
      reported_lines legible bounded,passed]
  · intro side
    unfold pending
    rw [visited_cleared,total_cleared]
  · unfold clearAll
    simp only [unmoved]
    refine ⟨?_,fun side => held_cleared⟩
    intro e inside
    obtain ⟨old,present,rfl⟩ := mem_map.mp inside
    exact legible old present

theorem flatMap_modify (f : α → List β) (g : α → α) (items : List α) (i : Nat) (there : items[i]? = some x) :
    ∃ before after, items.flatMap f = before ++ f x ++ after ∧ (items.modify i g).flatMap f = before ++ f (g x) ++ after := by
  induction items generalizing i with
  | nil => simp at there
  | cons first items ih =>
    cases i with
    | zero =>
      cases there
      exact ⟨[],items.flatMap f,by simp,by simp⟩
    | succ i =>
      obtain ⟨before,after,whole,changed⟩ := ih i there
      exact ⟨f first ++ before,after,by simp [whole],by simp [changed]⟩

theorem modify_outside {items : List α} (outside : items[i]? = none) : items.modify i g = items :=
  modify_eq_self (List.getElem?_eq_none_iff.mp outside)

theorem visited_onBucket {bucket : Nat} :
    (liveBucket servers server app bucket = [] ∧ visited (onBucket servers server app bucket g) = visited servers) ∨
    ∃ before after, visited servers = before ++ liveBucket servers server app bucket ++ after ∧
      visited (onBucket servers server app bucket g) = before ++ g (liveBucket servers server app bucket) ++ after := by
  cases atServer : servers[server]? with
  | none => exact .inl ⟨by simp [liveBucket,atServer],by rw [onBucket,modify_outside atServer]⟩
  | some s =>
    obtain ⟨before,after,whole,changed⟩ := flatMap_modify (fun s : Server => s.applications.flatMap (·.visited))
      (fun s => ⟨s.applications.modify app fun a => {a with streams:=a.streams.modify bucket g}⟩) servers server atServer
    cases atApp : s.applications[app]? with
    | none =>
      refine .inl ⟨by simp [liveBucket,atServer,atApp],?_⟩
      rw [visited,onBucket,changed,modify_outside atApp,visited,whole]
    | some a =>
      obtain ⟨inner,outer,part,partChanged⟩ := flatMap_modify (fun a : Application => a.visited)
        (fun a => {a with streams:=a.streams.modify bucket g}) s.applications app atApp
      by_cases on : a.live = true
      · cases atBucket : a.streams[bucket]? with
        | none =>
          refine .inl ⟨by simp [liveBucket,atServer,atApp,on,atBucket],?_⟩
          rw [visited,onBucket,changed,partChanged,modify_outside atBucket,visited,whole,part]
        | some own =>
          obtain ⟨left,right,streams,streamsChanged⟩ := flatMap_modify id g a.streams bucket atBucket
          have here : liveBucket servers server app bucket = own := by simp [liveBucket,atServer,atApp,on,atBucket]
          refine .inr ⟨before ++ inner ++ left,right ++ outer ++ after,?_,?_⟩
          · rw [visited,whole,part,Application.visited,if_pos on,← flatMap_id,streams,here]
            simp
          · rw [visited,onBucket,changed,partChanged,Application.visited,if_pos on,← flatMap_id,streamsChanged,here]
            simp
      · refine .inl ⟨by simp [liveBucket,atServer,atApp,on],?_⟩
        rw [visited,onBucket,changed,partChanged,visited,whole,part]
        simp [Application.visited,on]

theorem total_eraseIdx (place : Nat) : total side (bucket.eraseIdx place)+total side bucket[place]?.toList = total side bucket := by
  induction bucket generalizing place with
  | nil => rfl
  | cons s bucket ih =>
    cases place with
    | zero => simp [total,add_comm]
    | succ place =>
      have rest := ih place
      simp only [total,eraseIdx_cons_succ,List.getElem?_cons_succ,map_cons,sum_cons] at rest ⊢
      omega

theorem total_append : total side (first ++ second) = total side first+total side second := by
  simp [total]

theorem countBytes_bytes :
    ((countBytes incoming outgoing s).bytes side).toNat =
      ((s.bytes side).toNat+side.pick incoming.toNat outgoing.toNat) % 2^64 := by
  cases side <;> simp [countBytes,Stream.bytes,Side.pick]

theorem change_total (side : Side) (bucket : List Stream) (change : Change)
    (small : total side bucket+change.traffic side bucket < 2^64) :
    total side (change.apply bucket)+change.lost side bucket = total side bucket+change.traffic side bucket := by
  cases change with
  | count place incoming outgoing =>
    change total side (bucket.modify place (countBytes incoming outgoing))+0 = _
    cases there : bucket[place]? with
    | none =>
      have outside := List.getElem?_eq_none_iff.mp there
      rw [modify_outside there]
      simp [Change.traffic,Nat.not_lt.mpr outside]
    | some s =>
      have inside := (List.getElem?_eq_some_iff.mp there).1
      obtain ⟨before,after,whole,changed⟩ := flatMap_modify (fun s : Stream => [s]) (countBytes incoming outgoing) bucket place there
      simp only [flatMap_singleton'] at whole changed
      simp only [Change.traffic,if_pos inside] at small ⊢
      rw [changed]
      rw [whole] at small ⊢
      simp only [total_append] at small ⊢
      simp only [total,map_cons,map_nil,sum_cons,sum_nil,countBytes_bytes] at small ⊢
      rw [Nat.mod_eq_of_lt (by omega)]
      omega
  | session place host port =>
    change total side (bucket.modify place _)+0 = _+0
    cases there : bucket[place]? with
    | none => rw [modify_outside there]
    | some s =>
      obtain ⟨before,after,whole,changed⟩ := flatMap_modify (fun s : Stream => [s]) (fun s => {s with host,port}) bucket place there
      simp only [flatMap_singleton'] at whole changed
      have same : ({s with host,port} : Stream).bytes side = s.bytes side := by cases side <;> rfl
      rw [changed]
      rw [whole]
      simp only [total_append]
      simp [total,same]
  | enter host port =>
    change total side (bucket ++ [⟨host,port,0,0⟩])+0 = _+0
    rw [total_append]
    cases side <;> rfl
  | leave place =>
    exact total_eraseIdx place

theorem pending_change (side : Side) (st : State) (server app bucket : Nat) (change : Change)
    (small : pending side st.servers+change.traffic side (liveBucket st.servers server app bucket) < 2^64) :
    pending side (onBucket st.servers server app bucket (change.apply ·))+
        change.lost side (liveBucket st.servers server app bucket) =
      pending side st.servers+change.traffic side (liveBucket st.servers server app bucket) := by
  unfold pending at small ⊢
  rcases visited_onBucket with ⟨none,same⟩ | ⟨before,after,whole,changed⟩
  · rw [none,same]
    cases change <;> rfl
  · rw [changed]
    rw [whole] at small ⊢
    simp only [total_append] at small ⊢
    have own := change_total side (liveBucket st.servers server app bucket) change (by omega)
    omega

theorem settled_step (settled : Settled st.bd) (small : ∀ side, pending side st.servers < 2^63) (calm : Calm interval st event) :
    Settled (step interval st event).bd ∧ ∀ side, pending side (step interval st event).servers < 2^63 := by
  cases event with
  | change server app bucket change =>
    refine ⟨settled,?_⟩
    intro side
    have bound := calm side
    have moved := pending_change side st server app bucket change (by omega)
    change pending side (onBucket st.servers server app bucket (change.apply ·)) < 2^63
    omega
  | sync memory now =>
    obtain ⟨_,none,after⟩ := sync_reports settled small calm
    refine ⟨after,?_⟩
    intro side
    change pending side (sync interval memory now st).1.servers < 2^63
    rw [none]
    decide

-- What is counted is reported in a round, still pending, or gone with a stream that left.
theorem billing_conserved (settled : Settled st.bd) (small : ∀ side, pending side st.servers < 2^63)
    (calms : CalmRun interval st events) (side : Side) :
      (∀ round ∈ rounds interval st events, reported side round.2 = pending side round.1.servers) ∧
        ((rounds interval st events).map fun round => reported side round.2).sum+
            pending side (run interval st events).servers+overRun (lost side) interval st events =
          pending side st.servers+overRun (traffic side) interval st events := by
  induction events generalizing st with
  | nil => exact ⟨by simp [rounds],by simp [rounds,run,overRun]⟩
  | cons event events ih =>
    obtain ⟨calm,calms⟩ := calms
    obtain ⟨settled',small'⟩ := settled_step settled small calm
    obtain ⟨each,sum⟩ := ih settled' small' calms
    change ((rounds interval (step interval st event) events).map fun round => reported side round.2).sum+
        pending side (run interval (step interval st event) events).servers+_ = _ at sum
    cases event with
    | change server app bucket change =>
      have bound := calm side
      have moved := pending_change side st server app bucket change (by omega)
      refine ⟨each,?_⟩
      change ((rounds interval (step interval st (.change server app bucket change)) events).map fun round => reported side round.2).sum+
        pending side (run interval (step interval st (.change server app bucket change)) events).servers+
          (change.lost side (liveBucket st.servers server app bucket)+_) =
            _+(change.traffic side (liveBucket st.servers server app bucket)+_)
      change _ = pending side (onBucket st.servers server app bucket (change.apply ·))+_ at sum
      omega
    | sync memory now =>
      obtain ⟨told,none,_⟩ := sync_reports settled small calm
      refine ⟨?_,?_⟩
      · intro round inside
        rcases mem_cons.mp inside with rfl | later
        · exact told side
        · exact each round later
      · simp only [rounds,map_cons,sum_cons,told,overRun,traffic,lost,zero_add]
        change _ = pending side (sync interval memory now st).1.servers+_ at sum
        rw [none,zero_add] at sum
        change _+_+pending side (run interval (step interval st (.sync memory now)) events).servers+_ = _
        omega

-- ngx_rtmp_billing_start: an array of four entries
def start (servers : List Server) : State := ⟨servers,⟨[],4,none⟩⟩

theorem billed_in_one_round (interval : Nat) (servers : List Server) (events : List Event)
    (small : ∀ side, pending side servers < 2^63) (calm : CalmRun interval (start servers) events) (side : Side) :
    (∀ round ∈ rounds interval (start servers) events, reported side round.2 = pending side round.1.servers) ∧
      ((rounds interval (start servers) events).map fun round => reported side round.2).sum+
          pending side (run interval (start servers) events).servers+overRun (lost side) interval (start servers) events =
        pending side servers+overRun (traffic side) interval (start servers) events := by
  have settled : Settled (start servers).bd := ⟨fun e inside => (by cases inside),fun _ => rfl⟩
  exact billing_conserved settled small calm side

def quiet : Memory := ⟨fun _ _ => 0,fun _ => [],fun _ => ⟨0,0,[],by decide⟩,fun _ => false⟩

def oneStream : List Event :=
  [.change 0 0 0 (.enter [97] [49]),.change 0 0 0 (.count 0 5 7),.sync quiet 3,.change 0 0 0 (.count 0 1 0),.sync quiet 9]

theorem oneStream_calm : CalmRun 300 (start [⟨[⟨true,[[]]⟩]⟩]) oneStream := by
  refine ⟨?_,?_,⟨?_,.inl ?_,?_⟩,?_,⟨?_,.inl ?_,?_⟩,trivial⟩
  all_goals first
    | (intro side; cases side <;> decide +kernel)
    | (unfold Printable Fits; decide +kernel)
    | decide +kernel

theorem oneStream_billed :
    ((rounds 300 (start [⟨[⟨true,[[]]⟩]⟩]) oneStream).map fun round => reported .incoming round.2).sum+
        pending .incoming (run 300 (start [⟨[⟨true,[[]]⟩]⟩]) oneStream).servers+
          overRun (lost .incoming) 300 (start [⟨[⟨true,[[]]⟩]⟩]) oneStream =
      pending .incoming [⟨[⟨true,[[]]⟩]⟩]+overRun (traffic .incoming) 300 (start [⟨[⟨true,[[]]⟩]⟩]) oneStream :=
  (billed_in_one_round 300 [⟨[⟨true,[[]]⟩]⟩] oneStream (fun side => by cases side <;> decide) oneStream_calm .incoming).2

-- The array moves in the first round, the memsets clear the old block, and the second reports again.
def fiveHosts : List Server := [⟨[⟨true,[[⟨[97],[],1,0⟩,⟨[98],[],1,0⟩,⟨[99],[],1,0⟩,⟨[100],[],1,0⟩,⟨[101],[],1,0⟩]]⟩]⟩]

theorem five_hosts_billed_twice :
    (rounds 300 (start fiveHosts) [.sync quiet 3,.sync quiet 9]).map (fun round => reported .incoming round.2) = [4,5] ∧
      pending .incoming fiveHosts = 5 := by
  decide +kernel

end NgxRtmp.Billing
