import RaiseScript.Proofs.Walk
import RaiseScript.Parse.Grammar
import Mathlib.Data.List.Nodup

/-!
# Identities and places in a tree that was read

Every try expression and every raise has an identity. They are given out while the tokens are read,
each once, and raises start where their keyword stands. `Covers` says that what was read between two
cursors has its identities and places between theirs.
-/

namespace RaiseScript

variable {c : Cursor} {cs : List Char} {n : Nat} {p : Place} {ls : List Lexeme}
  {source file : String}

/-- The identity of a try expression or a raise, and where a raise starts. -/
structure Tag where
  id : NodeId
  start? : Option Nat

/-- The tag of a node. -/
def Visit.tag? : Visit → Option Tag
  | .attempt t => some ⟨t.id, none⟩
  | .stmt (.raise id _ span) => some ⟨id, some span.start⟩
  | _ => none

attribute [simp] Visit.tag?

/-- The tags of the nodes of a walk. -/
def tags (vs : List Visit) : List Tag :=
  vs.filterMap Visit.tag?

@[simp] theorem tags_nil : tags [] = [] := rfl

@[simp] theorem tags_append (us vs : List Visit) : tags (us ++ vs) = tags us ++ tags vs := by
  simp [tags]

@[simp] theorem tags_cons (v : Visit) (vs : List Visit) : tags (v :: vs) = v.tag?.toList ++ tags vs := by
  cases h : v.tag? <;> simp only [tags, List.filterMap_cons, h, Option.toList, List.nil_append,
    List.singleton_append]

/-! ## Cursors -/

namespace Cursor

/-- The lexemes ahead start one after the other, and the last one ends the input. -/
structure Sound (c : Cursor) : Prop where
  sorted : c.ahead.Pairwise fun l m => l.span.start < m.span.start
  ends : ∃ l, c.ahead.getLast? = some l ∧ l.token.isFinish = true

/-- Where the cursor stands in the text. -/
def place (c : Cursor) : Nat :=
  c.current.span.start

theorem advance_nextId (c : Cursor) : c.advance.nextId = c.nextId := by
  obtain ⟨before, _ | ⟨l, _ | ⟨m, rest⟩⟩, id⟩ := c <;> rfl

theorem Sound.advance (h : c.Sound) : c.advance.Sound := by
  obtain ⟨before, _ | ⟨l, _ | ⟨m, rest⟩⟩, id⟩ := c
  · exact h
  · exact h
  · obtain ⟨hsorted, k, hk, hfinish⟩ := h
    exact ⟨(List.pairwise_cons.1 hsorted).2, k, by rwa [List.getLast?_cons_cons] at hk, hfinish⟩

theorem Sound.place_le (h : c.Sound) : c.place ≤ c.advance.place := by
  obtain ⟨before, _ | ⟨l, _ | ⟨m, rest⟩⟩, id⟩ := c
  · exact Nat.le_refl _
  · exact Nat.le_refl _
  · exact Nat.le_of_lt ((List.pairwise_cons.1 h.sorted).1 m List.mem_cons_self)

/-- A lexeme that does not end the input is passed. -/
theorem Sound.place_lt (h : c.Sound) (hc : c.current.token.isFinish = false) : c.place < c.advance.place := by
  obtain ⟨hsorted, k, hk, hfinish⟩ := h
  obtain ⟨before, _ | ⟨l, _ | ⟨m, rest⟩⟩, id⟩ := c
  · cases hk
  · cases hk
    exact absurd (hfinish.symm.trans hc) (by simp)
  · exact (List.pairwise_cons.1 hsorted).1 m List.mem_cons_self

end Cursor

/-- The tags have their identities and places between those of two cursors. -/
structure Covers (c c' : Cursor) (ts : List Tag) : Prop where
  sound : c'.Sound
  nextId : c'.nextId = c.nextId + ts.length
  place : c.place ≤ c'.place
  ids : (ts.map (·.id)).Nodup
  idsWithin : ∀ t ∈ ts, c.nextId ≤ t.id ∧ t.id < c'.nextId
  starts : (ts.filterMap (·.start?)).Pairwise (· < ·)
  startsWithin : ∀ s ∈ ts.filterMap (·.start?), c.place ≤ s ∧ s < c'.place

namespace Covers

variable {c' c'' : Cursor} {ts us : List Tag}

/-- Nothing was read that has a tag. -/
theorem nil (hc' : c'.Sound) (hid : c'.nextId = c.nextId) (hplace : c.place ≤ c'.place) :
    Covers c c' [] :=
  ⟨hc', hid, hplace, by simp, by simp, by simp, by simp⟩

theorem refl (hc : c.Sound) : Covers c c [] :=
  nil hc rfl (Nat.le_refl _)

theorem advance (hc : c.Sound) : Covers c c.advance [] :=
  nil hc.advance c.advance_nextId hc.place_le

theorem nextId_le (h : Covers c c' ts) : c.nextId ≤ c'.nextId :=
  h.nextId ▸ Nat.le_add_right ..

theorem append (h : Covers c c' ts) (h' : Covers c' c'' us) : Covers c c'' (ts ++ us) where
  sound := h'.sound
  nextId := by rw [h'.nextId, h.nextId, List.length_append, Nat.add_assoc]
  place := Nat.le_trans h.place h'.place
  ids := by
    rw [List.map_append]
    refine h.ids.append h'.ids fun i hi hi' => ?_
    obtain ⟨t, ht, rfl⟩ := List.mem_map.1 hi
    obtain ⟨u, hu, hut⟩ := List.mem_map.1 hi'
    have hlt := Nat.lt_of_lt_of_le (h.idsWithin t ht).2 (h'.idsWithin u hu).1
    exact absurd hut (Nat.ne_of_gt hlt)
  idsWithin t ht := by
    rcases List.mem_append.1 ht with ht | ht
    · exact ⟨(h.idsWithin t ht).1, Nat.lt_of_lt_of_le (h.idsWithin t ht).2 h'.nextId_le⟩
    · exact ⟨Nat.le_trans h.nextId_le (h'.idsWithin t ht).1, (h'.idsWithin t ht).2⟩
  starts := by
    rw [List.filterMap_append, List.pairwise_append]
    refine ⟨h.starts, h'.starts, fun s hs s' hs' => ?_⟩
    exact Nat.lt_of_lt_of_le (h.startsWithin s hs).2 (h'.startsWithin s' hs').1
  startsWithin s hs := by
    rw [List.filterMap_append] at hs
    rcases List.mem_append.1 hs with hs | hs
    · exact ⟨(h.startsWithin s hs).1, Nat.lt_of_lt_of_le (h.startsWithin s hs).2 h'.place⟩
    · exact ⟨Nat.le_trans h.place (h'.startsWithin s hs).1, (h'.startsWithin s hs).2⟩

/-- A raise gets its identity after its value was read, and starts before it. -/
theorem raise {id : NodeId} (hc : c.Sound) (hfinish : c.current.token.isFinish = false)
    (h : Covers c.advance c' (ts ++ [⟨id, none⟩])) : Covers c c' (⟨id, some c.place⟩ :: ts) := by
  have hlt := hc.place_lt hfinish
  have hid := c.advance_nextId
  have hstarts : (ts ++ [⟨id, none⟩] : List Tag).filterMap (·.start?) = ts.filterMap (·.start?) := by
    simp
  have hs := h.startsWithin
  have hpairs := h.starts
  rw [hstarts] at hs hpairs
  refine ⟨h.sound, by simp [h.nextId, hid], Nat.le_trans (Nat.le_of_lt hlt) h.place, ?_, ?_, ?_, ?_⟩
  · have hnodup : (ts.map (·.id) ++ [id]).Nodup := by simpa using h.ids
    exact List.nodup_append_comm.1 hnodup
  · intro t ht
    rw [← hid]
    rcases List.mem_cons.1 ht with rfl | ht
    · exact h.idsWithin ⟨id, none⟩ (by simp)
    · exact h.idsWithin t (List.mem_append_left _ ht)
  · simp only [List.filterMap_cons, List.pairwise_cons]
    exact ⟨fun s hs' => Nat.lt_of_lt_of_le hlt (hs s hs').1, hpairs⟩
  · simp only [List.filterMap_cons, List.forall_mem_cons]
    exact ⟨⟨Nat.le_refl _, Nat.lt_of_lt_of_le hlt h.place⟩, fun s hs' =>
      ⟨Nat.le_trans (Nat.le_of_lt hlt) (hs s hs').1, (hs s hs').2⟩⟩

end Covers

/-! ## Lexemes -/

namespace Token

theorem passed_skipComment {k : Nat} {r : List Char × Nat × Nat} (h : skipComment cs n k = some r) :
    n < r.2.1 := by
  fun_induction skipComment cs n k with
  | case1 => simp at h
  | case2 cs => obtain rfl := Option.some.inj h; simp
  | case3 c cs passed lines _ ih => have := ih h; omega

theorem passed_readString {quote : Char} {r : List Char × List Char × Nat}
    (h : readString quote cs n = .ok r) : n < r.2.2 := by
  fun_induction readString quote cs n generalizing r with
  | case1 => simp at h
  | case2 => simp at h
  | case3 c cs => obtain rfl := Except.ok.inj h; simp
  | case4 => simp at h
  | case5 n e rest _ _ ih =>
    cases hr : readString quote rest (n + 2) with
    | error e => simp [hr, Except.map] at h
    | ok a =>
      have := ih hr
      rw [hr] at h
      obtain rfl := Except.ok.inj h
      simp only
      omega
  | case6 c cs n _ _ _ ih =>
    cases hr : readString quote cs (n + 1) with
    | error e => simp [hr, Except.map] at h
    | ok a =>
      have := ih hr
      rw [hr] at h
      obtain rfl := Except.ok.inj h
      simp only
      omega

theorem length_whole_pos {c : Char} (h : c.isDigit = true) : 0 < (readNumber (c :: cs)).1.length := by
  have hwhole : (readNumber (c :: cs)).1 = (c :: cs).takeWhile Char.isDigit := by
    unfold readNumber
    dsimp only
    split
    · split <;> rfl
    · rfl
  rw [hwhole, List.takeWhile_cons, if_pos h]
  simp

/-- Every step goes on in the text. -/
theorem position_lt_of_next {r : Place} (h : (next p).rest? = some r) : p.position < r.position := by
  unfold next at h
  split at h
  · simp [LexStep.rest?] at h
  · obtain rfl := Option.some.inj h
    simp only
    omega
  · split at h
    · rename_i hs
      have := passed_skipComment hs
      obtain rfl := Option.some.inj h
      simp only at this ⊢
      omega
    · simp [LexStep.rest?] at h
  · rename_i c cs _ _ hp
    split at h
    · obtain rfl := Option.some.inj h
      simp
    · split at h
      · split at h
        · rename_i hs
          have := passed_readString hs
          obtain rfl := Option.some.inj h
          simp only at this ⊢
          omega
        · simp [LexStep.rest?] at h
      · split at h
        · rename_i hd
          obtain rfl := Option.some.inj h
          exact Nat.lt_add_of_pos_right (Nat.add_pos_left (length_whole_pos hd) _)
        · split at h
          · rename_i hw
            obtain rfl := Option.some.inj h
            simp [isWordPart_of_isWordStart hw]
          · split at h
            · rename_i m rest hm
              have := length_text_pos m
              obtain rfl := Option.some.inj h
              simp only
              omega
            · simp [LexStep.rest?] at h

end Token

/-- The lexemes of a text start one after the other, and the last one ends it. -/
theorem sound_of_lexFrom (h : lexFrom p = .ok ls) :
    (∀ l ∈ ls, p.position ≤ l.span.start) ∧ (Cursor.start ls).Sound := by
  fun_induction lexFrom p generalizing ls with
  | case1 p hp =>
    cases h
    exact ⟨by simp, ⟨by simp [Cursor.start], _, rfl, rfl⟩⟩
  | case2 p rest hp _ ih =>
    have hlt := Token.position_lt_of_next (p := p) (r := rest) (by rw [hp]; rfl)
    obtain ⟨hfrom, hsound⟩ := ih h
    exact ⟨fun l hl => Nat.le_trans (Nat.le_of_lt hlt) (hfrom l hl), hsound⟩
  | case3 p token rest hp _ later hlater ih =>
    have hlt := Token.position_lt_of_next (p := p) (r := rest) (by rw [hp]; rfl)
    cases h
    obtain ⟨hfrom, hsound⟩ := ih hlater
    obtain ⟨hsorted, l, hl, hfinish⟩ := hsound
    refine ⟨?_, ?_, l, ?_, hfinish⟩
    · exact List.forall_mem_cons.2 ⟨Nat.le_refl _, fun l hl => Nat.le_trans (Nat.le_of_lt hlt) (hfrom l hl)⟩
    · exact List.pairwise_cons.2 ⟨fun l hl => Nat.lt_of_lt_of_le hlt (hfrom l hl), hsorted⟩
    · cases later with
      | nil => cases hl
      | cons m later => exact hl
  | case4 => cases h
  | case5 => cases h

theorem Except.exists_of_any {ε α : Type} {x : Except ε α} {look : α → Bool}
    (h : x.toOption.any look = true) : ∃ a, x = .ok a ∧ look a = true := by
  cases x with
  | error e => cases h
  | ok a => exact ⟨a, rfl, h⟩

theorem lex_eq_ok : lex source file = .ok ls ↔ lexFrom ⟨source.toList, 0, 1⟩ = .ok ls := by
  unfold lex lexChars
  cases lexFrom ⟨source.toList, 0, 1⟩ with
  | error e => exact ⟨nofun, nofun⟩
  | ok ls' => exact ⟨fun h => by cases h; rfl, fun h => by cases h; rfl⟩

theorem sound_of_lex (h : lex source file = .ok ls) : (Cursor.start ls).Sound :=
  (sound_of_lexFrom (lex_eq_ok.1 h)).2

end RaiseScript
