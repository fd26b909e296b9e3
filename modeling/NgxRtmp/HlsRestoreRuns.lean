import NgxRtmp.HlsRestore
import NgxRtmp.HlsWindowRuns

namespace NgxRtmp.HlsRestore

open HlsWindow List

def unlines (lines : List (List UInt8)) : List UInt8 := lines.flatMap fun line => line ++ [newline]

theorem unlines_cons : unlines (line::lines) = line ++ newline::unlines lines := by
  simp [unlines]

theorem unlines_append (first second : List (List UInt8)) : unlines (first ++ second) = unlines first ++ unlines second :=
  flatMap_append

def restoreAll (lines : List (List UInt8)) (st : Restoring) : Restoring := lines.foldl (fun st line => restoreLine line st) st

theorem restoreAll_append : restoreAll (first ++ second) st = restoreAll second (restoreAll first st) :=
  foldl_append

theorem restoreLines_part (noBreak : newline ∉ part) : restoreLines fuel part st = (st,part) := by
  have none : part.dropWhile (· ≠ newline) = [] := by
    have all : ∀ b ∈ part, decide (b ≠ newline) = true := by
      intro b inside
      exact decide_eq_true (fun same => noBreak (same ▸ inside))
    have dropped : (part ++ []).dropWhile (· ≠ newline) = [].dropWhile (· ≠ newline) := dropWhile_append_of_pos all
    rwa [append_nil] at dropped
  cases fuel with
  | zero => rfl
  | succ fuel => rw [restoreLines,none]

theorem restoreLines_unlines (noBreaks : ∀ line ∈ lines, newline ∉ line) (noBreak : newline ∉ part) (enough : lines.length ≤ fuel) :
    restoreLines fuel (unlines lines ++ part) st = (restoreAll lines st,part) := by
  induction lines generalizing fuel st with
  | nil => exact restoreLines_part noBreak
  | cons line lines ih =>
    have here : ∀ b ∈ line, decide (b ≠ newline) = true := by
      intro b inside
      exact decide_eq_true (fun same => noBreaks line mem_cons_self (same ▸ inside))
    cases fuel with
    | zero => simp at enough
    | succ fuel =>
      rw [unlines_cons,append_assoc,cons_append,restoreLines,dropWhile_append_of_pos here,
        takeWhile_append_of_pos here]
      simp only [dropWhile_cons,takeWhile_cons,ne_eq,not_true_eq_false,decide_false,Bool.false_eq_true,if_false,
        append_nil]
      rw [ih (fun other inside => noBreaks other (mem_cons_of_mem _ inside)) (by simpa using enough)]
      rfl

theorem unlines_length (lines : List (List UInt8)) : lines.length ≤ (unlines lines).length := by
  induction lines with
  | nil => simp
  | cons line lines ih =>
    rw [unlines_cons,length_append,length_cons,length_cons]
    omega

theorem take_unlines (m : Nat) (noBreaks : ∀ line ∈ lines, newline ∉ line) :
    ∃ first second part, lines = first ++ second ∧ (unlines lines).take m = unlines first ++ part ∧ newline ∉ part ∧
      ∀ line rest, lines = line::rest → line.length < m → first ≠ [] := by
  induction lines generalizing m with
  | nil => exact ⟨[],[],[],rfl,by simp [unlines],by simp,by intro line rest none; cases none⟩
  | cons line lines ih =>
    by_cases whole : line.length < m
    · obtain ⟨first,second,part,split,taken,noBreak,_⟩ := ih (m-(line.length+1))
        (fun other inside => noBreaks other (mem_cons_of_mem _ inside))
      refine ⟨line::first,second,part,by rw [split,cons_append],?_,noBreak,by simp⟩
      rw [unlines_cons,unlines_cons,take_append,take_of_length_le (by omega),
        show m-line.length = (m-(line.length+1))+1 by omega,take_succ_cons,taken]
      simp
    · refine ⟨[],line::lines,line.take m,rfl,?_,?_,?_⟩
      · rw [unlines_cons,take_append_of_le_length (by omega)]
        rfl
      · exact fun inside => noBreaks line mem_cons_self (mem_of_mem_take inside)
      · intro other rest same short
        cases same
        exact absurd short whole

def Ample (got : Nat → Nat) (text : List UInt8) : Prop := ∀ offset < text.length, min 1024 (text.length-offset) ≤ got offset

theorem restoreLoop_unlines (ample : Ample got (unlines before ++ unlines lines))
    (small : ∀ line ∈ lines, newline ∉ line ∧ line.length < 1024) (enough : lines.length ≤ fuel) :
    restoreLoop got (unlines before ++ unlines lines) fuel (unlines before).length st = restoreAll lines st := by
  induction fuel generalizing before lines st with
  | zero =>
    obtain rfl := eq_nil_of_length_eq_zero (Nat.le_zero.mp enough)
    rfl
  | succ fuel ih =>
    cases lines with
    | nil => simp [restoreLoop,unlines,restoreAll]
    | cons line rest =>
      have room : (unlines before).length < (unlines before ++ unlines (line::rest)).length := by
        rw [length_append,unlines_cons,length_append,length_cons]
        omega
      have returned := ample _ room
      rw [length_append,Nat.add_sub_cancel_left] at returned
      obtain ⟨first,second,part,split,taken,noBreak,progress⟩ := take_unlines (got (unlines before).length)
        (fun other inside => (small other inside).1)
      have here := (small line mem_cons_self).2
      have some_first : first ≠ [] := by
        refine progress line rest rfl ?_
        rw [unlines_cons,length_append,length_cons] at returned
        omega
      have size := length_pos_iff.mpr some_first
      have scanned : restoreLines (unlines first ++ part).length (unlines first ++ part) st = (restoreAll first st,part) := by
        refine restoreLines_unlines ?_ noBreak ?_
        · intro other inside
          exact (small other (split ▸ mem_append_left _ inside)).1
        · have least := unlines_length first
          rw [length_append]
          omega
      have moved : (unlines before).length+((unlines first ++ part).length-part.length) = (unlines (before ++ first)).length := by
        rw [unlines_append,length_append,length_append]
        omega
      have least := unlines_length first
      rw [restoreLoop,drop_left,taken]
      simp only [scanned]
      rw [if_neg (by rw [← length_eq_zero_iff,length_append]; omega),if_neg (by rw [length_append]; omega),moved]
      rw [split,unlines_append,← append_assoc,← unlines_append] at ample ⊢
      rw [ih ample (fun other inside => small other (split ▸ mem_append_right _ inside))
        (by rw [split,length_append] at enough; omega),restoreAll_append]

theorem digits_shape (width n : Nat) (some_digits : 0 < width) : digits width n ≠ [] ∧ (digits width n).length ≤ width ∧
    ∀ b ∈ digits width n, 48 ≤ b.toNat ∧ b.toNat ≤ 57 := by
  induction width generalizing n with
  | zero => cases some_digits
  | succ width ih =>
    rw [digits]
    split
    · refine ⟨by simp,by simp,?_⟩
      intro b inside
      rw [mem_singleton.mp inside,UInt8.toNat_ofNat']
      omega
    · refine ⟨by simp,?_,?_⟩
      · cases width with
        | zero => simp [digits]
        | succ width => simpa using (ih (n/10) (by omega)).2.1
      · intro b inside
        rcases mem_append.mp inside with earlier | last
        · cases width with
          | zero => simp [digits] at earlier
          | succ width => exact (ih (n/10) (by omega)).2.2 b earlier
        · rw [mem_singleton.mp last,UInt8.toNat_ofNat']
          omega

theorem digits_value (width n : Nat) (small : n < 10^width) : (digits width n).foldl (fun n b => 10*n+(b.toNat-48)) 0 = n := by
  induction width generalizing n with
  | zero =>
    simp [digits] at small ⊢
    omega
  | succ width ih =>
    rw [digits]
    split
    · rw [foldl_cons,foldl_nil,UInt8.toNat_ofNat']
      omega
    · rw [foldl_append,ih (n/10) (by rw [pow_succ] at small; omega),foldl_cons,foldl_nil,UInt8.toNat_ofNat']
      omega

theorem isDigit_iff : isDigit b = true ↔ 48 ≤ b.toNat ∧ b.toNat ≤ 57 := by
  simp [isDigit,UInt8.le_iff_toNat_le]

theorem strtod_decimal (small : n < 10^20) : strtod (decimal n) = double n := by
  have all : ∀ b ∈ decimal n, isDigit b = true := fun b inside => isDigit_iff.mpr ((digits_shape 20 n (by decide)).2.2 b inside)
  have whole : (decimal n).takeWhile isDigit = decimal n := by
    have taken : (decimal n ++ []).takeWhile isDigit = decimal n ++ [].takeWhile isDigit := takeWhile_append_of_pos all
    simpa using taken
  rw [strtod,whole,decimal,digits_value 20 n small]

theorem decimal_noBreak : newline ∉ decimal n := by
  intro inside
  have digit := (digits_shape 20 n (by decide)).2.2 _ inside
  simp [newline] at digit

theorem restoreId_frag : (restoreId line st).frag = st.frag := by
  unfold restoreId
  simp only
  generalize (if line.getLast? = some 13 then line.dropLast else line) = shown
  split
  · split <;> rfl
  · rfl

theorem restoreLine_frag : (restoreLine line st).frag =
    if mseq.isPrefixOf line then UInt64.ofNat (strtod (line.drop mseq.length)) else st.frag := by
  rw [restoreLine,restoreId_frag,restoreSequence]
  split <;> rfl

theorem restoreAll_quiet (quiet : ∀ line ∈ lines, mseq.isPrefixOf line = false) : (restoreAll lines st).frag = st.frag := by
  induction lines generalizing st with
  | nil => rfl
  | cons line lines ih =>
    change (restoreAll lines (restoreLine line st)).frag = _
    rw [ih (fun other inside => quiet other (mem_cons_of_mem _ inside)),restoreLine_frag,quiet line mem_cons_self]
    rfl

theorem mseq_head (other : line.head? ≠ some 35) : mseq.isPrefixOf line = false := by
  cases line with
  | nil => rfl
  | cons b line =>
    have differs : b ≠ 35 := by simpa using other
    have tag : mseq = 35::mseq.tail := by decide
    rw [tag,List.isPrefixOf]
    simp [Ne.symm differs]

structure Plain (site : Site) (p : Playlist) : Prop where
  noBreak : newline ∉ site.baseUrl ++ site.name
  uriLine : (site.baseUrl ++ namePart site).head? ≠ some 35
  fits : ∀ f ∈ p.entries, (entry site f).length ≤ 1024

def headerLines (site : Site) (p : Playlist) : List (List UInt8) :=
  [bytes "#EXT-X-TARGETDURATION:" ++ decimal p.target] ++ if site.event then [bytes "#EXT-X-PLAYLIST-TYPE: EVENT"] else []

def entryLines (site : Site) (f : Frag) : List (List UInt8) :=
  (if f.discont then [bytes "#EXT-X-DISCONTINUITY"] else []) ++ [bytes "#EXTINF:" ++ seconds f.duration ++ bytes ",",uri site f]

theorem entry_unlines : entry site f = unlines (entryLines site f) := by
  have comma : bytes ",\n" = bytes "," ++ [newline] := by decide
  have discontinuity : bytes "#EXT-X-DISCONTINUITY\n" = bytes "#EXT-X-DISCONTINUITY" ++ [newline] := by decide
  unfold entry entryLines
  rw [comma,discontinuity]
  cases f.discont <;> simp [unlines]

theorem header_unlines : header site p =
    unlines ([bytes "#EXTM3U",bytes "#EXT-X-VERSION:3",mseq ++ decimal p.sequence.toNat] ++ headerLines site p) := by
  have first : bytes "#EXTM3U\n" = bytes "#EXTM3U" ++ [newline] := by decide
  have version : bytes "#EXT-X-VERSION:3\n" = bytes "#EXT-X-VERSION:3" ++ [newline] := by decide
  have kind : bytes "#EXT-X-PLAYLIST-TYPE: EVENT\n" = bytes "#EXT-X-PLAYLIST-TYPE: EVENT" ++ [newline] := by decide
  unfold header headerLines
  rw [first,version,kind]
  cases site.event <;> simp [unlines,mseq]

def playlistLines (site : Site) (p : Playlist) : List (List UInt8) :=
  [bytes "#EXTM3U",bytes "#EXT-X-VERSION:3",mseq ++ decimal p.sequence.toNat] ++
    (headerLines site p ++ p.entries.flatMap (entryLines site))

theorem header_fits (site : Site) (p : Playlist) : (header site p).length ≤ 1024 := by
  have sequence := (digits_shape 20 p.sequence.toNat (by decide)).2.1
  have target := (digits_shape 20 p.target (by decide)).2.1
  have l1 : (bytes "#EXTM3U\n").length = 8 := by decide
  have l2 : (bytes "#EXT-X-VERSION:3\n").length = 17 := by decide
  have l3 : (bytes "#EXT-X-MEDIA-SEQUENCE:").length = 22 := by decide
  have l4 : (bytes "#EXT-X-TARGETDURATION:").length = 22 := by decide
  have l5 : (bytes "#EXT-X-PLAYLIST-TYPE: EVENT\n").length = 28 := by decide
  unfold header decimal
  simp only [length_append,length_singleton,l1,l2,l3,l4]
  split
  · rw [l5]
    omega
  · rw [length_nil]
    omega

theorem playlistText_unlines (plain : Plain site p) : playlistText site p = unlines (playlistLines site p) := by
  have printedEntries : (p.entries.flatMap fun f => printed (entry site f)) = unlines (p.entries.flatMap (entryLines site)) := by
    have each : ∀ f ∈ p.entries, printed (entry site f) = unlines (entryLines site f) := by
      intro f inside
      rw [printed,take_of_length_le (plain.fits f inside),entry_unlines]
    rw [flatMap_def,map_congr_left each,← flatMap_def,unlines,flatMap_assoc]
    rfl
  rw [playlistText,printed,take_of_length_le (header_fits site p),header_unlines,printedEntries,playlistLines,
    ← append_assoc,unlines_append _ (p.entries.flatMap _)]

theorem uri_head (plain : Plain site p) : (uri site f).head? ≠ some 35 := by
  have digit := digits_shape 20 f.id.toNat (by decide)
  unfold uri
  cases front : site.baseUrl ++ namePart site with
  | cons b rest =>
    have first := plain.uriLine
    rw [front] at first
    simpa using first
  | nil =>
    rw [nil_append]
    cases number : decimal f.id.toNat with
    | nil => exact absurd number digit.1
    | cons b rest =>
      have range := digit.2.2 b (by rw [show digits 20 f.id.toNat = b::rest from number]; exact mem_cons_self)
      have other : b ≠ 35 := by
        rintro rfl
        exact absurd range.1 (by decide)
      unfold dot sep
      cases site.nested with
      | false => simp [bytes]
      | true =>
        by_cases base : site.baseUrl = []
        · simpa [base] using other
        · simp [base,bytes]

theorem mem_playlistLines {p : Playlist} (inside : line ∈ p.entries.flatMap (entryLines site)) :
    ∃ f ∈ p.entries, line = bytes "#EXT-X-DISCONTINUITY" ∨ line = bytes "#EXTINF:" ++ seconds f.duration ++ bytes "," ∨ line = uri site f := by
  obtain ⟨f,listed,own⟩ := mem_flatMap.mp inside
  refine ⟨f,listed,?_⟩
  have cases : (f.discont = true ∧ line = bytes "#EXT-X-DISCONTINUITY") ∨
      line = bytes "#EXTINF:" ++ seconds f.duration ++ bytes "," ∨ line = uri site f := by simpa [entryLines] using own
  exact cases.imp_left And.right

theorem mem_headerLines (inside : line ∈ headerLines site p) :
    line = bytes "#EXT-X-TARGETDURATION:" ++ decimal p.target ∨ line = bytes "#EXT-X-PLAYLIST-TYPE: EVENT" := by
  have cases : line = bytes "#EXT-X-TARGETDURATION:" ++ decimal p.target ∨
      (site.event = true ∧ line = bytes "#EXT-X-PLAYLIST-TYPE: EVENT") := by simpa [headerLines] using inside
  exact cases.imp_right And.right

theorem quiet_lines (plain : Plain site p) : ∀ line ∈ headerLines site p ++ p.entries.flatMap (entryLines site),
    mseq.isPrefixOf line = false := by
  intro line inside
  rcases mem_append.mp inside with early | listed
  · rcases mem_headerLines early with rfl | rfl
    · rfl
    · decide
  · obtain ⟨f,_,rfl | rfl | rfl⟩ := mem_playlistLines listed
    · decide
    · rfl
    · exact mseq_head (uri_head plain)

theorem seconds_noBreak : newline ∉ seconds duration := by
  have digit : ∀ n, newline ≠ UInt8.ofNat (48+n % 10) := by
    intro n same
    have value := congrArg UInt8.toNat same
    rw [UInt8.toNat_ofNat'] at value
    simp only [newline] at value
    change 10 = (48+n % 10) % 256 at value
    omega
  unfold seconds
  simp only [mem_append,mem_cons,not_mem_nil,or_false,not_or]
  exact ⟨⟨decimal_noBreak,by decide⟩,digit _,digit _,digit _⟩

theorem uri_noBreak (plain : Plain site p) : newline ∉ uri site f := by
  have given : newline ∉ site.baseUrl ∧ newline ∉ site.name := by
    have both := plain.noBreak
    rw [mem_append,not_or] at both
    exact both
  have name : newline ∉ namePart site := by
    unfold namePart
    split
    · exact given.2
    · simp
  have point : newline ∉ dot site := by unfold dot; split <;> decide
  have slash : newline ∉ sep site := by unfold sep; split <;> decide
  unfold uri
  simp only [mem_append,not_or]
  exact ⟨⟨⟨⟨⟨given.1,name⟩,point⟩,slash⟩,decimal_noBreak⟩,by decide⟩

theorem playlistLines_noBreak (plain : Plain site p) : ∀ line ∈ playlistLines site p, newline ∉ line := by
  intro line inside
  rcases mem_append.mp inside with first | later
  · simp only [mem_cons,not_mem_nil,or_false] at first
    rcases first with rfl | rfl | rfl
    · decide
    · decide
    · rw [mem_append,not_or]
      exact ⟨by decide,decimal_noBreak⟩
  · rcases mem_append.mp later with early | listed
    · rcases mem_headerLines early with rfl | rfl
      · rw [mem_append,not_or]
        exact ⟨by decide,decimal_noBreak⟩
      · decide
    · obtain ⟨f,_,rfl | rfl | rfl⟩ := mem_playlistLines listed
      · decide
      · simp only [mem_append,not_or]
        exact ⟨⟨by decide,seconds_noBreak⟩,by decide⟩
      · exact uri_noBreak plain

theorem line_lt_unlines (inside : line ∈ lines) : line.length < (unlines lines).length := by
  obtain ⟨before,after,rfl⟩ := append_of_mem inside
  rw [unlines_append,unlines_cons,length_append,length_append,length_cons]
  omega

theorem playlistLines_short (plain : Plain site p) : ∀ line ∈ playlistLines site p, line.length < 1024 := by
  intro line inside
  rw [playlistLines,← append_assoc] at inside
  rcases mem_append.mp inside with early | listed
  · have fits := header_fits site p
    rw [header_unlines] at fits
    exact lt_of_lt_of_le (line_lt_unlines early) fits
  · obtain ⟨f,own,here⟩ := mem_flatMap.mp listed
    have fits := plain.fits f own
    rw [entry_unlines] at fits
    exact lt_of_lt_of_le (line_lt_unlines here) fits

-- Whatever the reads return, the counter is taken from the media sequence.
theorem restoreLoop_frag (plain : Plain site p) (ample : Ample got (playlistText site p)) (st : Restoring) :
    (restoreLoop got (playlistText site p) (playlistText site p).length 0 st).frag = UInt64.ofNat (double p.sequence.toNat) := by
  have small : p.sequence.toNat < 10^20 := by
    have bound := p.sequence.toNat_lt
    omega
  have lines : ∀ line ∈ playlistLines site p, newline ∉ line ∧ line.length < 1024 := fun line inside =>
    ⟨playlistLines_noBreak plain line inside,playlistLines_short plain line inside⟩
  rw [playlistText_unlines plain] at ample ⊢
  have loop : restoreLoop got (unlines (playlistLines site p)) (unlines (playlistLines site p)).length 0 st =
      restoreAll (playlistLines site p) st :=
    restoreLoop_unlines (show Ample got (unlines [] ++ unlines (playlistLines site p)) from ample) lines (unlines_length _)
  have tagged : mseq.isPrefixOf (mseq ++ decimal p.sequence.toNat) = true :=
    isPrefixOf_iff_prefix.mpr (prefix_append _ _)
  rw [loop,playlistLines,restoreAll_append,restoreAll_quiet (quiet_lines plain)]
  simp only [restoreAll,foldl_cons,foldl_nil]
  rw [restoreLine_frag,if_pos tagged,drop_left,strtod_decimal small]

def Continues (conf : Conf) (p : Playlist) (ctx : Ctx) : Prop :=
  ∀ ts system, ∀ f ∈ p.entries, f.id < getFragmentId conf ctx ts system

theorem restored_id (sequential : conf.naming = .sequential) (plain : Plain site p) (ample : Ample got (playlistText site p)) : getFragmentId conf (restoreStream got (some (playlistText site p)) ctx) ts system =
      UInt64.ofNat (double p.sequence.toNat) := by
  have frag := restoreLoop_frag plain ample ⟨ctx.frag,0⟩
  simp only [getFragmentId,sequential,restoreStream,frag]
  exact UInt64.add_zero _

theorem double_small (small : n < 2^53) : double n = n := by
  rw [double,if_pos small]

theorem restore_continues_iff (conf : Conf) (start : Ctx) (events : List Event) (sequential : conf.naming = .sequential)
    (whole : conf.granularity = 0) (shut : start.opened = false) (fresh : start.nfrags = 0)
    (unwrapped : start.frag.toNat+(run conf start events).2.length < 2^64)
    {j : Nat} {c : Closed} (closed : (run conf start events).2[j]? = some c) (written : c.playlist = some p)
    (site : Site) (plain : Plain site p) (got : Nat → Nat) (ample : Ample got (playlistText site p)) (ctx : Ctx) :
    Continues conf p (restoreStream got (some (playlistText site p)) ctx) ↔
      p.entries = [] ∨
      (2^53 ≤ p.sequence.toNat ∧ p.sequence.toNat+p.entries.length ≤ (UInt64.ofNat (double p.sequence.toNat)).toNat) := by
  obtain ⟨last,lists⟩ := run_keeps sequential whole events start [] (window_start shut fresh) (by simpa using unwrapped)
  have numbered := ((windowed_of_kept last lists).1 j c p closed written).2
  constructor
  · intro continues
    by_cases none : p.entries = []
    · exact .inl none
    · have size := length_pos_iff.mpr none
      have inside : p.entries.length-1 < p.entries.length := by omega
      have id := numbered _ _ (List.getElem?_eq_getElem inside)
      have past := continues 0 0 _ (getElem_mem inside)
      rw [restored_id sequential plain ample,UInt64.lt_iff_toNat_lt,id] at past
      refine .inr ⟨?_,by omega⟩
      by_contra low
      rw [double_small (by omega),UInt64.ofNat_toNat] at past
      omega
  · rintro (none | ⟨_,past⟩) ts system f inside
    · rw [none] at inside
      cases inside
    · obtain ⟨i,at_i⟩ := mem_iff_getElem?.mp inside
      have bound := (List.getElem?_eq_some_iff.mp at_i).1
      rw [restored_id sequential plain ample,UInt64.lt_iff_toNat_lt,numbered i f at_i]
      omega

-- The last playlist of three fragments with a window of two.
def livePlaylist : Playlist := ⟨1,5,[⟨1,450000,true,false⟩,⟨2,450000,true,false⟩]⟩
def liveSite : Site := ⟨false,false,[],bytes "live"⟩
def newContext : Ctx := published fun _ => ⟨7,7,false,false⟩

theorem livePlaylist_plain : Plain liveSite livePlaylist := ⟨by decide,by decide,by decide +kernel⟩

theorem restore_continues_iff_live :
    Continues twoListed livePlaylist (restoreStream (fun _ => 4096) (some (playlistText liveSite livePlaylist)) newContext) ↔
      livePlaylist.entries = [] ∨
      (2^53 ≤ livePlaylist.sequence.toNat ∧
        livePlaylist.sequence.toNat+livePlaylist.entries.length ≤ (UInt64.ofNat (double livePlaylist.sequence.toNat)).toNat) :=
  restore_continues_iff twoListed newContext threeFragments rfl rfl rfl rfl (by decide)
    (show (run twoListed newContext threeFragments).2[2]? = some ⟨⟨2,450000,true,false⟩,some livePlaylist⟩ by decide +kernel) rfl
    liveSite livePlaylist_plain (fun _ => 4096) (fun _ _ => le_trans (Nat.min_le_left _ _) (show 1024 ≤ 4096 by decide)) newContext

theorem restored_id_listed :
    (run twoListed newContext threeFragments).2[2]? = some ⟨⟨2,450000,true,false⟩,some livePlaylist⟩ ∧
    getFragmentId twoListed (restoreStream (fun _ => 4096) (some (playlistText liveSite livePlaylist)) newContext) 0 0 = 1 ∧
    ¬ Continues twoListed livePlaylist (restoreStream (fun _ => 4096) (some (playlistText liveSite livePlaylist)) newContext) := by
  have next : getFragmentId twoListed (restoreStream (fun _ => 4096) (some (playlistText liveSite livePlaylist)) newContext) 0 0 = 1 := by
    decide +kernel
  refine ⟨by decide +kernel,next,?_⟩
  intro continues
  have past := continues 0 0 ⟨1,450000,true,false⟩ (by decide)
  rw [next] at past
  exact absurd past (by decide)

end NgxRtmp.HlsRestore
