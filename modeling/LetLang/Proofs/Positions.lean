import LetLang.Proofs.Lexemes

/-!
# Positions of a cursor

A cursor counts bytes and checks nothing, so it can be moved inside a character or past the end.  Inside a
character nothing can be read, and past the end nothing but the end token.  Reading a token moves the cursor
past the blanks and past the token, by as many bytes as these take, so it comes to stand between two
characters.  From the start of a source the cursor is led astray by `advance` only.

    c.ahead? = none ↔ past the end, or inside a character                  (Cursor.ahead?_eq_none_iff)
    c.next? moves on by the bytes of the blanks and of the token      (Cursor.exists_advance_of_next?)
    what cannot be read from where, after any calls                                     (calls_refused)
-/

namespace LetLang

/-! ## Places in a text -/

/-- The position is behind the first byte of a character and before the end of its last. -/
def InsideCharacter (source : String) (pos : Nat) : Prop :=
  ∃ before c after, source.toList = before ++ c :: after ∧
    byteLength before < pos ∧ pos < byteLength before + c.utf8Size

theorem utf8ByteSize_ofList (cs : List Char) : (String.ofList cs).utf8ByteSize = byteLength cs := by
  induction cs with
  | nil => rfl
  | cons c cs ih =>
    have hcons : String.ofList ([c] ++ cs) = String.singleton c ++ String.ofList cs :=
      String.ofList_append
    rw [List.singleton_append] at hcons
    rw [hcons, String.utf8ByteSize_append, String.utf8ByteSize_singleton, ih, byteLength_cons]

theorem byteLength_toList (source : String) : byteLength source.toList = source.utf8ByteSize := by
  rw [← utf8ByteSize_ofList, String.ofList_toList]

theorem InsideCharacter.lt {source : String} {pos : Nat} (h : InsideCharacter source pos) :
    pos < source.utf8ByteSize := by
  obtain ⟨before, c, after, htext, -, hlt⟩ := h
  rw [← byteLength_toList, htext, byteLength_append, byteLength_cons]
  omega

/-- Dropping bytes fails past the end and inside a character. -/
theorem dropBytes_eq_none_iff {n : Nat} {cs : List Char} :
    dropBytes n cs = none ↔ byteLength cs < n ∨ ∃ before c after, cs = before ++ c :: after ∧
      byteLength before < n ∧ n < byteLength before + c.utf8Size := by
  fun_induction dropBytes n cs with
  | case1 cs =>
    constructor
    · intro h
      cases h
    · rintro (h | ⟨before, c, after, -, h, -⟩) <;> exact absurd h (Nat.not_lt_zero _)
  | case2 n => exact iff_of_true rfl (.inl (Nat.succ_pos n))
  | case3 n c cs hle ih =>
    -- a character is dropped, and counts for what is in front
    rw [ih]
    constructor
    · rintro (h | ⟨before, d, after, rfl, hbefore, hafter⟩)
      · left
        rw [byteLength_cons]
        omega
      · refine .inr ⟨c :: before, d, after, rfl, ?_⟩
        rw [byteLength_cons]
        omega
    · rintro (h | ⟨before, d, after, htext, hbefore, hafter⟩)
      · left
        rw [byteLength_cons] at h
        omega
      · cases before with
        | nil =>
          obtain ⟨rfl, rfl⟩ := List.cons.inj htext
          rw [byteLength_nil] at hafter
          omega
        | cons e before =>
          obtain ⟨rfl, rfl⟩ := List.cons.inj htext
          rw [byteLength_cons] at hbefore hafter
          exact .inr ⟨before, d, after, rfl, by omega, by omega⟩
  | case4 n c cs hlt =>
    refine iff_of_true rfl (.inr ⟨[], c, cs, rfl, Nat.succ_pos n, ?_⟩)
    rw [byteLength_nil]
    omega

/-- Dropping bytes succeeds between two characters, and at the ends. -/
theorem dropBytes_isSome_iff {source : String} {n : Nat} :
    (dropBytes n source.toList).isSome ↔ (String.Pos.Raw.mk n).IsValid source := by
  rw [String.Pos.Raw.isValid_iff_exists_append, Option.isSome_iff_exists]
  constructor
  · rintro ⟨rest, h⟩
    obtain ⟨front, htext, rfl⟩ := dropBytes_eq_some_iff.1 h
    refine ⟨String.ofList front, String.ofList rest, ?_, ?_⟩
    · rw [← String.ofList_append, ← htext, String.ofList_toList]
    · rw [← utf8ByteSize_ofList]
      rfl
  · rintro ⟨front, rest, rfl, h⟩
    refine ⟨rest.toList, dropBytes_eq_some_iff.2 ⟨front.toList, String.toList_append, ?_⟩⟩
    rw [byteLength_toList]
    exact (congrArg String.Pos.Raw.byteIdx h).symm

namespace Cursor

variable {c c' : Cursor} {t : Token} {source : String}

/-! ## Where nothing can be read -/

theorem size_of_text (h : c.text = source.toList) : c.size = source.utf8ByteSize := by
  rw [size, h, byteLength_toList]

theorem ahead?_eq_none_iff (h : c.text = source.toList) :
    c.ahead? = none ↔ source.utf8ByteSize < c.pos ∨ InsideCharacter source c.pos := by
  rw [ahead?, dropBytes_eq_none_iff, h, byteLength_toList]
  rfl

theorem unread?_eq_none_iff (h : c.text = source.toList) :
    c.unread? = none ↔ c.pos < source.utf8ByteSize ∧ InsideCharacter source c.pos := by
  by_cases hend : c.size ≤ c.pos
  · have hpos := size_of_text h
    rw [unread?_of_size_le hend]
    refine iff_of_false (Option.some_ne_none _) ?_
    rintro ⟨hlt, -⟩
    omega
  · have hpos := size_of_text h
    rw [unread?, if_neg (by simpa [atEnd] using hend), ahead?_eq_none_iff h]
    constructor
    · rintro (hlt | hinside)
      · omega
      · exact ⟨hinside.lt, hinside⟩
    · rintro ⟨-, hinside⟩
      exact .inr hinside

/-! ## Reading on -/

/-- Reading up to an end part of what is ahead leaves that part ahead. -/
theorem ahead?_leaving {cs rest : List Char} (h : c.ahead? = some cs) (hs : rest <:+ cs) :
    (c.leaving rest).ahead? = some rest := by
  obtain ⟨before, htext, hbefore⟩ := dropBytes_eq_some_iff.1 h
  obtain ⟨front, rfl⟩ := hs
  refine dropBytes_eq_some_iff.2 ⟨before ++ front, by rw [List.append_assoc]; exact htext, ?_⟩
  have hsize : c.size = byteLength before + (byteLength front + byteLength rest) := by
    rw [size, htext, byteLength_append, byteLength_append]
  rw [byteLength_append, pos_leaving, hsize]
  omega

/-- A token that is read has been ahead, with blanks in front; the cursor is moved past these and past the
token, by the bytes that they take. -/
theorem exists_advance_of_next? (h : c.next? = some (t, c')) (ht : t.kind ≠ .eof) :
    ∃ blanks rest, (∀ ch ∈ blanks, isBlank ch) ∧ t.text.toList ≠ [] ∧
      c.ahead? = some (blanks ++ (t.text.toList ++ rest)) ∧ c'.ahead? = some rest ∧
      c' = (c.advance (byteLength blanks)).advance (byteLength t.text.toList) := by
  obtain ⟨cs, hunread, rfl, rfl⟩ := next?_eq_some_iff.1 h
  have hscan : scan cs = ((scan cs).1, (scan cs).2) := rfl
  obtain ⟨hlexeme, -, blanks, hblanks, hcs⟩ := lexeme_of_scan hscan ht
  have hne : cs ≠ [] := by
    rintro rfl
    exact ht rfl
  have hahead : c.ahead? = some cs := by
    unfold unread? at hunread
    split at hunread
    · exact absurd (Option.some.inj hunread).symm hne
    · exact hunread
  have hsize := add_byteLength_of_dropBytes hahead
  refine ⟨blanks, (scan cs).2, hblanks, hlexeme.toList_ne_nil, by rw [← hcs]; exact hahead,
    ahead?_leaving hahead (scan_suffix cs), ?_⟩
  have hlength := congrArg byteLength hcs
  rw [byteLength_append, byteLength_append] at hlength
  simp only [leaving, advance, size]
  congr 1
  omega

/-- So the cursor comes to stand between two characters, further on and not past the end. -/
theorem isValid_of_next? (htext : c.text = source.toList) (h : c.next? = some (t, c'))
    (ht : t.kind ≠ .eof) :
    (String.Pos.Raw.mk c'.pos).IsValid source ∧ c.pos < c'.pos ∧ c'.pos ≤ source.utf8ByteSize := by
  obtain ⟨blanks, rest, -, hne, -, hrest, rfl⟩ := exists_advance_of_next? h ht
  have hpos := byteLength_pos hne
  have hsize := add_byteLength_of_dropBytes hrest
  rw [← byteLength_toList, ← htext]
  refine ⟨?_, ?_, ?_⟩
  · rw [← dropBytes_isSome_iff, ← htext]
    exact Option.isSome_iff_exists.2 ⟨rest, hrest⟩
  · simp only [advance]
    omega
  · simp only [advance] at hsize ⊢
    omega

theorem pos_of_next?_eof (h : c.next? = some (t, c')) (ht : t.kind = .eof) :
    c'.pos = max c.pos c.size := by
  obtain ⟨cs, -, rfl, rfl⟩ := next?_eq_some_iff.1 h
  rw [scan_eq_of_kind_eof ht, pos_leaving, byteLength_nil, Nat.sub_zero]

/-! ## Collecting -/

/-- Once something can be read, so can whatever is left, as often as wanted. -/
theorem isSome_answers?_item {cs : List Char} (h : c.unread? = some cs) (n : Nat) :
    (c.answers? item? n).isSome := by
  induction n generalizing c cs with
  | zero => rfl
  | succ n ih =>
    rw [answers?, item?_of_unread? h]
    simpa using ih (unread?_leaving h (scan_suffix cs))

/-- Of the items asked for one after the other, only the first can be refused. -/
theorem answers?_item_eq_none_iff (n : Nat) : c.answers? item? (n + 1) = none ↔ c.item? = none := by
  cases hunread : c.unread? with
  | none =>
    have hitem : c.item? = none := by simp [item?, next?, hunread]
    exact iff_of_true (by rw [answers?, hitem]) hitem
  | some cs =>
    have hanswers := isSome_answers?_item hunread (n + 1)
    have hitem := item?_of_unread? hunread
    exact iff_of_false (Option.isSome_iff_ne_none.1 hanswers) (by rw [hitem]; exact Option.some_ne_none _)

/-- Collecting is asking for one item after the other, up to the one that is missing. -/
theorem answers?_item_of_unread? {cs : List Char} (h : c.unread? = some cs) :
    c.answers? item? ((scanAll cs).length + 1) =
      some ((scanAll cs).map some ++ [none], c.leaving []) := by
  obtain ⟨last, rest, hall, hrest, heof, hleaving⟩ := answers?_scanAll
    (f := fun t => if t.kind = .eof then none else some t) item?_of_unread? h
  have hone : last.answers? item? 1 = some ([none], c.leaving []) := by
    rw [answers?, item?_of_unread? hrest, if_pos heof, scan_eq_of_kind_eof heof, ← hleaving]
    rfl
  rw [map_item_scanAll] at hall
  exact answers?_add hall hone

theorem answers?_item_of_drain? {ts : List Token} {last : Cursor} (h : c.drain? = some (ts, last)) :
    c.answers? item? (ts.length + 1) = some (ts.map some ++ [none], last) := by
  obtain ⟨cs, hunread, heq⟩ := Option.map_eq_some_iff.1 h
  cases heq
  exact answers?_item_of_unread? hunread

theorem pos_of_drain? {ts : List Token} {last : Cursor} (h : c.drain? = some (ts, last)) :
    last.pos = max c.pos c.size := by
  obtain ⟨cs, -, heq⟩ := Option.map_eq_some_iff.1 h
  cases heq
  rw [pos_leaving, byteLength_nil, Nat.sub_zero]

end Cursor

/-! ## Calls -/

/-- What can be asked of a cursor. -/
inductive CursorCall where
  | next
  | item
  | collect
  | char
  | remainder
  | advance (n : Nat)
  /-- Puts a copy of the cursor aside. -/
  | mark
  /-- Goes back to the copy put aside last. -/
  | goBack

/-- What a cursor gives back. -/
inductive CursorAnswer where
  | nothing
  | token (t : Token)
  | item (t : Option Token)
  | tokens (ts : List Token)
  | char (c : Char)
  | text (s : String)
  deriving DecidableEq

/-- A cursor, and the copies of it that were put aside, the last one first. -/
structure Bookmarked where
  cursor : Cursor
  marks : List Cursor := []
  deriving DecidableEq

namespace Bookmarked

def ofString (source : String) : Bookmarked := { cursor := .ofString source }

/-- Answers a call; `none` if the cursor stands where it cannot. -/
def perform? (b : Bookmarked) : CursorCall → Option (CursorAnswer × Bookmarked)
  | .next => b.cursor.next?.map fun (t, c) => (.token t, { b with cursor := c })
  | .item => b.cursor.item?.map fun (t, c) => (.item t, { b with cursor := c })
  | .collect => b.cursor.drain?.map fun (ts, c) => (.tokens ts, { b with cursor := c })
  | .char => b.cursor.char?.map fun ch => (.char ch, b)
  | .remainder => b.cursor.remainder?.map fun s => (.text s, b)
  | .advance n => some (.nothing, { b with cursor := b.cursor.advance n })
  | .mark => some (.nothing, { b with marks := b.cursor :: b.marks })
  | .goBack =>
    match b.marks with
    | [] => some (.nothing, b)
    | c :: marks => some (.nothing, ⟨c, marks⟩)

/-- The state after a call.  One that cannot be answered leaves all as it is. -/
def after (b : Bookmarked) (call : CursorCall) : Bookmarked :=
  match b.perform? call with
  | none => b
  | some (_, b') => b'

/-- The state after one call after the other. -/
def afterAll (b : Bookmarked) (calls : List CursorCall) : Bookmarked := calls.foldl after b

/-- The cursor and all copies put aside are of a certain sort. -/
def All (P : Cursor → Prop) (b : Bookmarked) : Prop := P b.cursor ∧ ∀ c ∈ b.marks, P c

/-- A call reads on, moves by hand, or comes to a cursor that was there; no other cursor is put aside. -/
theorem cases_of_perform? {b b' : Bookmarked} {call : CursorCall} {answer : CursorAnswer}
    (h : b.perform? call = some (answer, b')) :
    (∃ cs rest, b.cursor.unread? = some cs ∧ rest <:+ cs ∧
      b' = { b with cursor := b.cursor.leaving rest }) ∨
    (∃ n, call = .advance n ∧ b' = { b with cursor := b.cursor.advance n }) ∨
    b'.cursor ∈ b.cursor :: b.marks ∧ b'.marks ⊆ b.cursor :: b.marks := by
  have hread : ∀ t c, b.cursor.next? = some (t, c) → ∃ cs rest, b.cursor.unread? = some cs ∧
      rest <:+ cs ∧ ({ b with cursor := c } : Bookmarked) = { b with cursor := b.cursor.leaving rest } := by
    intro t c hn
    obtain ⟨cs, hunread, -, rfl⟩ := Cursor.next?_eq_some_iff.1 hn
    exact ⟨cs, _, hunread, scan_suffix cs, rfl⟩
  have hstays : b.cursor ∈ b.cursor :: b.marks ∧ b.marks ⊆ b.cursor :: b.marks :=
    ⟨List.mem_cons_self, List.subset_cons_self _ _⟩
  cases call with
  | next =>
    obtain ⟨⟨t, c⟩, hn, heq⟩ := Option.map_eq_some_iff.1 h
    cases heq
    exact .inl (hread t c hn)
  | item =>
    obtain ⟨⟨item, c⟩, hi, heq⟩ := Option.map_eq_some_iff.1 h
    cases heq
    obtain ⟨⟨t, c⟩, hn, heq⟩ := Option.map_eq_some_iff.1 hi
    cases heq
    exact .inl (hread t _ hn)
  | collect =>
    obtain ⟨⟨ts, c⟩, hd, heq⟩ := Option.map_eq_some_iff.1 h
    cases heq
    obtain ⟨cs, hunread, heq⟩ := Option.map_eq_some_iff.1 hd
    cases heq
    exact .inl ⟨cs, [], hunread, List.nil_suffix, rfl⟩
  | char =>
    obtain ⟨ch, -, heq⟩ := Option.map_eq_some_iff.1 h
    cases heq
    exact .inr (.inr hstays)
  | remainder =>
    obtain ⟨s, -, heq⟩ := Option.map_eq_some_iff.1 h
    cases heq
    exact .inr (.inr hstays)
  | advance n =>
    cases h
    exact .inr (.inl ⟨n, rfl, rfl⟩)
  | mark =>
    cases h
    exact .inr (.inr ⟨List.mem_cons_self, List.Subset.refl _⟩)
  | goBack =>
    unfold perform? at h
    dsimp only at h
    split at h
    · cases h
      exact .inr (.inr hstays)
    · next c marks hc =>
      cases h
      rw [hc]
      refine .inr (.inr ⟨List.mem_cons_of_mem _ List.mem_cons_self, fun d hd => ?_⟩)
      exact List.mem_cons_of_mem _ (List.mem_cons_of_mem _ hd)

section

variable {P : Cursor → Prop} {calls : List CursorCall}
  (hleaving : ∀ c cs rest, P c → c.unread? = some cs → rest <:+ cs → P (c.leaving rest))

include hleaving

/-- A call keeps what reading keeps, and what moving by hand keeps if it does that. -/
theorem All.after {b : Bookmarked} {call : CursorCall} (h : b.All P)
    (hadvance : ∀ n c, call = .advance n → P c → P (c.advance n)) : (b.after call).All P := by
  have hall : ∀ c ∈ b.cursor :: b.marks, P c := List.forall_mem_cons.2 h
  unfold Bookmarked.after
  split
  · exact h
  · next answer b' hb =>
    obtain ⟨cs, rest, hunread, hs, rfl⟩ | ⟨n, rfl, rfl⟩ | ⟨hcursor, hmarks⟩ := cases_of_perform? hb
    · exact ⟨hleaving _ cs rest h.1 hunread hs, h.2⟩
    · exact ⟨hadvance n _ rfl h.1, h.2⟩
    · exact ⟨hall _ hcursor, fun c hc => hall c (hmarks hc)⟩

theorem All.afterAll {b : Bookmarked} (h : b.All P)
    (hadvance : ∀ n c, .advance n ∈ calls → P c → P (c.advance n)) : (b.afterAll calls).All P := by
  induction calls generalizing b with
  | nil => exact h
  | cons call calls ih =>
    have hcall : (b.after call).All P := h.after hleaving fun n c hn =>
      hadvance n c (hn ▸ List.mem_cons_self)
    exact ih hcall fun n c hn => hadvance n c (List.mem_cons_of_mem _ hn)

end

end Bookmarked

/-! ## Where a call cannot be answered -/

/-- From the position in the source the call cannot be answered.  A move by hand always can, as there is no
last position. -/
def CursorCall.Refused (source : String) (pos : Nat) : CursorCall → Prop
  | .next | .item | .collect => pos < source.utf8ByteSize ∧ InsideCharacter source pos
  | .char | .remainder => source.utf8ByteSize < pos ∨ InsideCharacter source pos
  | .advance _ | .mark | .goBack => False

theorem CursorCall.Refused.misplaced {source : String} {pos : Nat} {call : CursorCall}
    (h : call.Refused source pos) : source.utf8ByteSize < pos ∨ InsideCharacter source pos := by
  cases call with
  | next => exact .inr h.2
  | item => exact .inr h.2
  | collect => exact .inr h.2
  | char => exact h
  | remainder => exact h
  | advance n => exact h.elim
  | mark => exact h.elim
  | goBack => exact h.elim

namespace Bookmarked

variable {b : Bookmarked} {source : String}

theorem perform?_eq_none_iff (h : b.cursor.text = source.toList) (call : CursorCall) :
    b.perform? call = none ↔ call.Refused source b.cursor.pos := by
  have hunread := Cursor.unread?_eq_none_iff h
  have hahead := Cursor.ahead?_eq_none_iff h
  cases call with
  | next => rw [perform?, Option.map_eq_none_iff, Cursor.next?, Option.map_eq_none_iff, hunread]; rfl
  | item =>
    rw [perform?, Option.map_eq_none_iff, Cursor.item?, Option.map_eq_none_iff, Cursor.next?,
      Option.map_eq_none_iff, hunread]
    rfl
  | collect =>
    rw [perform?, Option.map_eq_none_iff, Cursor.drain?, Option.map_eq_none_iff, hunread]
    rfl
  | char => rw [perform?, Option.map_eq_none_iff, Cursor.char?, Option.map_eq_none_iff, hahead]; rfl
  | remainder =>
    rw [perform?, Option.map_eq_none_iff, Cursor.remainder?, Option.map_eq_none_iff, hahead]
    rfl
  | advance n => exact iff_of_false (Option.some_ne_none _) id
  | mark => exact iff_of_false (Option.some_ne_none _) id
  | goBack =>
    refine iff_of_false ?_ id
    unfold perform?
    dsimp only
    split <;> exact Option.some_ne_none _

/-- The text of the cursors stays the source. -/
theorem text_afterAll (source : String) (calls : List CursorCall) :
    ((ofString source).afterAll calls).cursor.text = source.toList := by
  have h : (ofString source).All fun c => c.text = source.toList := ⟨rfl, by simp [ofString]⟩
  exact (h.afterAll (fun _ _ _ htext _ _ => htext) fun _ _ _ htext => htext).1

/-- As long as no cursor is moved by hand, all of them stand between two characters. -/
theorem isSome_ahead?_afterAll (source : String) {calls : List CursorCall}
    (hcalls : ∀ n, .advance n ∉ calls) :
    ((ofString source).afterAll calls).cursor.ahead?.isSome := by
  have h : (ofString source).All fun c => c.ahead?.isSome :=
    ⟨by simp [ofString, Cursor.ofString, Cursor.ahead?], by simp [ofString]⟩
  refine (h.afterAll (fun c cs rest hc hunread hs => ?_) fun n _ hn => absurd hn (hcalls n)).1
  obtain ⟨ds, hds⟩ := Option.isSome_iff_exists.1 hc
  rw [Cursor.unread?_of_ahead? hds] at hunread
  cases hunread
  rw [Cursor.ahead?_leaving hds hs]
  rfl

end Bookmarked

/-- After whatever calls, a cursor on a source cannot be read inside a character, and past the end it has only
the end token; all else is answered.  A token other than the end leaves the cursor between two characters, further
on and not past the end; the end token leaves it at the end, or where it was past that.  Of the items of a
collection only the first can be refused, and the last is the missing one.  And without moving the cursor by hand
one never comes to a place where a call is refused. -/
theorem calls_refused (source : String) :
    (∀ calls : List CursorCall,
      let b := (Bookmarked.ofString source).afterAll calls
      let pos := b.cursor.pos
      (∀ call, b.perform? call = none ↔ call.Refused source pos) ∧
        (∀ t c, b.cursor.next? = some (t, c) →
          (t.kind ≠ .eof → (String.Pos.Raw.mk c.pos).IsValid source ∧ pos < c.pos ∧
            c.pos ≤ source.utf8ByteSize) ∧
          (t.kind = .eof → c.pos = max pos source.utf8ByteSize)) ∧
        (∀ n, b.cursor.answers? Cursor.item? (n + 1) = none ↔ b.cursor.item? = none) ∧
        ∀ ts c, b.cursor.drain? = some (ts, c) →
          b.cursor.answers? Cursor.item? (ts.length + 1) = some (ts.map some ++ [none], c) ∧
            c.pos = max pos source.utf8ByteSize) ∧
    ∀ calls : List CursorCall, (∀ n, .advance n ∉ calls) →
      ∀ call, ((Bookmarked.ofString source).afterAll calls).perform? call ≠ none := by
  constructor
  · intro calls b pos
    have htext : b.cursor.text = source.toList := Bookmarked.text_afterAll source calls
    have hsize : b.cursor.size = source.utf8ByteSize := Cursor.size_of_text htext
    refine ⟨Bookmarked.perform?_eq_none_iff htext, fun t c hn => ⟨fun ht => ?_, fun ht => ?_⟩,
      Cursor.answers?_item_eq_none_iff, fun ts c hd => ⟨Cursor.answers?_item_of_drain? hd, ?_⟩⟩
    · exact Cursor.isValid_of_next? htext hn ht
    · rw [← hsize]
      exact Cursor.pos_of_next?_eof hn ht
    · rw [← hsize]
      exact Cursor.pos_of_drain? hd
  · intro calls hcalls call hnone
    have htext := Bookmarked.text_afterAll source calls
    have hahead := Bookmarked.isSome_ahead?_afterAll source hcalls
    rw [Bookmarked.perform?_eq_none_iff htext] at hnone
    exact Option.isSome_iff_ne_none.1 hahead ((Cursor.ahead?_eq_none_iff htext).2 hnone.misplaced)

/-- In `né;` a cursor moved one byte too far stands inside the second character, where no token can be read;
moved past the end it gives the end token and stays, and its remainder cannot be read. -/
theorem calls_refused_astray :
    let inside := (Bookmarked.ofString "né;").afterAll [.next, .mark, .advance 1]
    let past := (Bookmarked.ofString "né;").afterAll [.collect, .advance 5]
    let back := (Bookmarked.ofString "né;").afterAll [.mark, .next, .char, .goBack]
    (inside.cursor.pos = 2 ∧ inside.perform? .next = none ∧ inside.perform? .collect = none) ∧
      (past.cursor.pos = 9 ∧ past.perform? .remainder = none ∧
        ∀ t c, past.cursor.next? = some (t, c) → t.kind = .eof → c.pos = 9) ∧
      back.perform? .collect ≠ none := by
  intro inside past back
  have hpos : inside.cursor.pos = 2 := by decide +kernel
  have hpast : past.cursor.pos = 9 := by decide +kernel
  have hinside : InsideCharacter "né;" 2 := ⟨['n'], 'é', [';'], by decide, by decide, by decide⟩
  have hrefused : inside.cursor.pos < "né;".utf8ByteSize ∧ InsideCharacter "né;" inside.cursor.pos := by
    rw [hpos]
    exact ⟨by decide, hinside⟩
  obtain ⟨hcalls, hunmoved⟩ := calls_refused "né;"
  obtain ⟨hin, -⟩ := hcalls [.next, .mark, .advance 1]
  obtain ⟨hout, hread, -⟩ := hcalls [.collect, .advance 5]
  refine ⟨⟨hpos, (hin .next).2 hrefused, (hin .collect).2 hrefused⟩, ⟨hpast, (hout .remainder).2 ?_,
    fun t c hn ht => ?_⟩, hunmoved _ (by simp) _⟩
  · left
    rw [hpast]
    decide
  · have hend := (hread t c hn).2 ht
    rw [hpast] at hend
    exact hend

end LetLang
