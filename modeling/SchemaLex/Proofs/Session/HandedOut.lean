-- SUMMARY: Documentation comments are handed out at most once each, in the order of the text.
import SchemaLex.Proofs.Doc.Sequence
import SchemaLex.Proofs.Session.History
import SchemaLex.Proofs.Session.Reached

/-!
# Handing Out Comments

The comments that the lookups of a run hand out are some of the documentation comments of the text,
each at most once and in the order of the text: `handedOut_in_order`. The induction on the run keeps
what is yet to come in view: the comment in the slot, if there is one, and then the comments that
end ahead of the session.
-/

namespace SchemaLex

/-- The documentation comments of a text of that layout, each with the parts up to its end. -/
def Text.docs (options : Options) (cs : List Char) (layout : Layout) : List (Doc × List Part) :=
  Part.docs options [] (Text.parts cs layout)

/-- The text of a comment, if the answer brings one. -/
def docText : Except Fault Reply → Option String
  | .ok (.doc text) => text
  | _ => none

theorem docText_of_ne {reply : Reply} (h : ∀ found, reply ≠ .doc (some found)) :
    docText (.ok reply) = none := by
  cases reply with
  | doc found =>
    cases found with
    | none => rfl
    | some found => exact absurd rfl (h found)
  | _ => rfl

theorem Doc.hasText_iff {doc : Doc} : doc.hasText ↔ doc.text ≠ "" := by
  simp [Doc.hasText]

namespace Session

/-- The comment that an answer brings, with the parts up to its end. -/
def handed (layout : Layout) (answer : Except Fault Reply) (s : Session) :
    List (Doc × List Part) :=
  match docText answer with
  | some _ => (docBehind layout s).toList
  | none => []

/-- The comments that a sequence of calls hands out, in order, each with the parts up to its end. -/
def handedOut (layout : Layout) (s : Session) : List Call → List (Doc × List Part)
  | [] => []
  | call :: calls =>
    handed layout (s.perform call).1 (s.perform call).2 ++
      handedOut layout (s.perform call).2 calls

/-- The comment in the slot, with the parts up to its end. -/
def inSlot (layout : Layout) (s : Session) : List (Doc × List Part) :=
  match s.slot with
  | some _ => (docBehind layout s).toList
  | none => []

/-- What a lookup does where the comment in the slot has no text: the comment stays, unless a later
    one takes its place. A fault is one of looking ahead. -/
structure Spares (layout : Layout) (s : Session) (call : Call) (doc : Doc) : Prop where
  stays {reply : Reply} {s' : Session} : s.perform call = (.ok reply, s') →
    s'.slot = some doc ∨ ∃ later upTo, docBehind layout s' = some (later, upTo) ∧
      (partsBehind layout s).length < upTo.length ∧
      (s'.slot = some later ∨ s'.slot = none ∧ reply = .doc (some later.text))
  fault {fault : Fault} {s' : Session} :
    s.perform call = (.error fault, s') → s.peek = (.error fault, s')

variable {s s' looked : Session} {options : Options} {text : String} {layout : Layout}
  {read crossed : List Part} {place place' : Place} {returned : List Part → Prop} {call : Call}
  {calls : List Call} {reply : Reply} {doc : Doc}

theorem handed_of_none {answer : Except Fault Reply} (h : docText answer = none) :
    handed layout answer s = [] := by
  rw [handed, h]

theorem inSlot_of_none (h : s.slot = none) : inSlot layout s = [] := by
  rw [inSlot, h]

theorem inSlot_of_some (h : s.slot = some doc) : inSlot layout s = (docBehind layout s).toList := by
  rw [inSlot, h]

/-! ## Texts -/

theorem ne_empty_of_takeDoc {rule : Doc → Bool} {found : String}
    (h : s.takeDoc rule = (some found, s')) : found ≠ "" := by
  obtain ⟨doc, -, rfl, htext, -⟩ := takeDoc_of_some h
  exact Doc.hasText_iff.mp htext

theorem ne_empty_of_takeTrailing {line : Nat} {found : String}
    (h : s.takeTrailing line = (.ok (some found), s')) : found ≠ "" := by
  unfold takeTrailing at h
  split at h
  · obtain ⟨htaken, -⟩ := Prod.mk.inj h
    exact ne_empty_of_takeDoc (Prod.ext (Except.ok.inj htaken) rfl)
  · split at h
    · obtain ⟨htaken, -⟩ := Prod.mk.inj h
      exact ne_empty_of_takeDoc (Prod.ext (Except.ok.inj htaken) rfl)
    · cases h

/-- No call brings a comment without text. -/
theorem ne_empty_of_perform {found : String} (h : docText (s.perform call).1 = some found) :
    found ≠ "" := by
  rcases hperform : s.perform call with ⟨fault | reply, s'⟩
  · rw [hperform] at h
    cases h
  · rw [hperform] at h
    cases call with
    | leading =>
      obtain ⟨hreply, -⟩ := Prod.mk.inj hperform
      obtain rfl := Except.ok.inj hreply
      exact ne_empty_of_takeDoc (Prod.ext h rfl)
    | trailing line =>
      obtain ⟨taken, htrailing, rfl⟩ := exists_of_map_eq_ok hperform
      obtain rfl : taken = some found := h
      exact ne_empty_of_takeTrailing htrailing
    | enqueue token =>
      obtain ⟨hreply, -⟩ := Prod.mk.inj hperform
      obtain rfl := Except.ok.inj hreply
      cases h
    | _ =>
      obtain ⟨answer, -, rfl⟩ := exists_of_map_eq_ok hperform
      cases h

theorem ne_empty_of_run {found : String} (h : found ∈ (s.run calls).1.filterMap docText) :
    found ≠ "" := by
  induction calls generalizing s with
  | nil => cases h
  | cons call calls ih =>
    rw [run, List.filterMap_cons] at h
    cases hfirst : docText (s.perform call).1 with
    | none =>
      rw [hfirst] at h
      exact ih h
    | some first =>
      rw [hfirst] at h
      rcases List.mem_cons.mp h with rfl | hlater
      · exact ne_empty_of_perform hfirst
      · exact ih hlater

/-! ## One Call -/

/-- Looking puts the last comment that it crosses in the slot, or leaves the slot as it is. -/
theorem SlotHolds.inSlot_sublist (h : looked.SlotHolds options (read ++ crossed) place' returned)
    (hread : s.HasRead options text layout read place)
    (hlooked : looked.HasRead options text layout (read ++ crossed) place')
    (hslot : looked.slot = s.slot ∨ ∃ doc upTo,
      Part.latest options (read ++ crossed).reverse = some (doc, upTo) ∧
      read.length < upTo.length ∧ looked.slot = some doc) :
    (inSlot layout looked).Sublist
      (inSlot layout s ++ Part.docs options read.reverse crossed) := by
  cases hdoc : looked.slot with
  | none =>
    rw [inSlot_of_none hdoc]
    exact List.nil_sublist _
  | some doc =>
    obtain ⟨upTo, hlatest, -⟩ := h.of_slot hdoc
    rw [inSlot_of_some hdoc, hlooked.docBehind_eq, hlatest, Option.toList_some]
    rw [List.reverse_append] at hlatest
    rcases Part.mem_docs_or_of_latest hlatest with hmem | hbehind
    · exact (List.singleton_sublist.mpr hmem).trans (List.sublist_append_right _ _)
    · have hsame : s.slot = some doc := by
        rcases hslot with hsame | ⟨later, upTo', hlater, hlength, -⟩
        · exact hsame.symm.trans hdoc
        · rw [List.reverse_append, hlatest] at hlater
          obtain ⟨-, rfl⟩ := Prod.mk.inj (Option.some.inj hlater)
          have hle := (Part.suffix_of_latest hbehind).length_le
          rw [List.length_reverse] at hle
          omega
      rw [inSlot_of_some hsame, hread.docBehind_eq, hbehind]
      exact List.sublist_append_left _ _

/-- What a call hands out and what is then in the slot come from the slot before and from the parts
    that the call crosses. -/
theorem Follows.handed_of_perform (h : s.Follows options text layout read place)
    (hperform : s.perform call = (.ok reply, s')) :
    ∃ crossed place', s'.Follows options text layout (read ++ crossed) place' ∧
      (handed layout (.ok reply) s' ++ inSlot layout s').Sublist
        (inSlot layout s ++ Part.docs options read.reverse crossed) ∧
      (handed layout (.ok reply) s').map (·.1.text) = (docText (.ok reply)).toList ∧
      (Part.linesAbove (crossed.reverse ++ read.reverse) = [] ∨ place'.parts = []) := by
  obtain ⟨returned, hholds⟩ := h.holds
  obtain ⟨new, looked, hperforms⟩ := performs_of_perform hperform
  obtain ⟨crossed, place', hlooked, hholds', hslot⟩ := hholds.of_looks h.hasRead hperforms.looks
  have hread' : s'.HasRead options text layout (read ++ crossed) place' :=
    hlooked.congr hperforms.options hperforms.reader hperforms.opened
  have hbehind : docBehind layout s' = docBehind layout looked := by
    rw [hread'.docBehind_eq, hlooked.docBehind_eq]
  have hsublist := hholds'.inSlot_sublist h.hasRead hlooked hslot
  have hcut := hholds'.apart.symm
  rw [List.reverse_append] at hcut
  refine ⟨crossed, place', ?_⟩
  rcases hperforms.slot with ⟨doc, rfl, hdoc, hnone⟩ | ⟨hreply, hsame⟩
  · obtain ⟨upTo, hlatest, -⟩ := hholds'.of_slot hdoc
    refine ⟨⟨hread', _, hholds'.of_handedOut hlatest hnone⟩, ?_, ?_, hcut⟩
    · rw [inSlot_of_some hdoc, ← hbehind] at hsublist
      rwa [inSlot_of_none hnone, List.append_nil]
    · rw [handed, hread'.docBehind_eq, hlatest]
      rfl
  · have hinSlot : inSlot layout s' = inSlot layout looked := by
      rw [inSlot, hsame, hbehind, inSlot]
    have hnothing := docText_of_ne hreply
    refine ⟨⟨hread', _, hholds'.congr hsame fun _ => Iff.rfl⟩, ?_, ?_, hcut⟩
    · rwa [handed_of_none hnothing, List.nil_append, hinSlot]
    · rw [handed_of_none hnothing, hnothing]
      rfl

/-- No lookup takes a comment without text out of the slot. -/
theorem Follows.spares (h : s.Follows options text layout read place) (hcall : call.IsLookup)
    (hslot : s.slot = some doc) (hempty : doc.text = "") : s.Spares layout call doc where
  stays {reply s'} hperform := by
    obtain ⟨returned, hholds⟩ := h.holds
    obtain ⟨crossed, place', hread', -, hattributes⟩ := hholds.of_perform h.hasRead hperform
    rw [h.hasRead.partsBehind_eq]
    by_cases hreply : ∃ found, reply = .doc (some found)
    · obtain ⟨found, rfl⟩ := hreply
      obtain ⟨later, upTo, hbehind, rfl, hnone⟩ := hattributes.handed rfl
      refine .inr ⟨later, upTo, hbehind, ?_, .inr ⟨hnone, rfl⟩⟩
      rw [hread'.docBehind_eq, List.reverse_append] at hbehind
      rcases Part.mem_docs_or_of_latest hbehind with hmem | hsame
      · simpa using Part.length_lt_of_mem_docs hmem
      · -- The comment from before has no text.
        obtain ⟨upTo', hlatest, -⟩ := hholds.of_slot hslot
        obtain ⟨rfl, -⟩ := Prod.mk.inj (Option.some.inj (hsame.symm.trans hlatest))
        have hbrought : docText (s.perform call).1 = some later.text := by
          rw [hperform]
          rfl
        exact absurd hempty (ne_empty_of_perform hbrought)
    · rcases hattributes.kept (not_exists.mp hreply) with
        hsame | ⟨later, upTo, hbehind, hlength, hlater⟩
      · exact .inl (hsame.trans hslot)
      · rw [h.hasRead.partsBehind_eq] at hlength
        exact .inr ⟨later, upTo, hbehind, hlength, .inl hlater⟩
  fault {fault s'} hperform := by
    rcases fault_of_perform hperform with ⟨hqueue, hscan⟩ | ⟨wanted, rfl, -⟩
    · exact peek_of_fault hqueue hscan
    · cases hcall

/-! ## Runs -/

theorem Silent.handedOut (h : s.Silent) (layout : Layout) (calls : List Call) :
    s.handedOut layout calls = [] ∧ (s.run calls).1.filterMap docText = [] := by
  induction calls generalizing s with
  | nil => exact ⟨rfl, rfl⟩
  | cons call calls ih =>
    obtain ⟨hlater, hlater'⟩ := ih (h.perform call)
    have hnothing : docText (s.perform call).1 = none := by
      rcases hperform : s.perform call with ⟨fault | reply, s'⟩
      · rfl
      · exact docText_of_ne (h.of_perform hperform).2
    rw [Session.handedOut, handed_of_none hnothing, hlater, Session.run, List.filterMap_cons,
      hnothing]
    exact ⟨rfl, hlater'⟩

/-- A run hands out the comment in the slot or none, and then some of those that end ahead. -/
theorem Follows.handedOut (h : s.Follows options text layout read place) (calls : List Call) :
    (s.handedOut layout calls).Sublist
        (inSlot layout s ++ Part.docs options read.reverse place.parts) ∧
      (s.handedOut layout calls).map (·.1.text) = (s.run calls).1.filterMap docText := by
  induction calls generalizing s read place with
  | nil => exact ⟨List.nil_sublist _, rfl⟩
  | cons call calls ih =>
    rw [Session.handedOut, Session.run]
    rcases hperform : s.perform call with ⟨fault | reply, s'⟩
    · obtain ⟨hnothing, hnothing'⟩ := (silent_of_fault hperform).handedOut layout calls
      rw [hnothing]
      exact ⟨List.nil_sublist _, hnothing'.symm⟩
    · obtain ⟨crossed, place', h', hhere, htext, hcut⟩ := h.handed_of_perform hperform
      obtain ⟨hlater, htexts⟩ := ih h'
      have hparts := h.hasRead.parts_ahead h'.hasRead
      constructor
      · have hcut' := hcut.imp_right fun hnil => congrArg Part.lineBelow hnil
        rw [hparts, Part.docs_append hcut', ← List.append_assoc]
        rw [List.reverse_append] at hlater
        refine (hlater.append_left _).trans ?_
        rw [← List.append_assoc]
        exact hhere.append_right _
      · rw [List.map_append, htext, htexts, List.filterMap_cons]
        cases docText (.ok reply) <;> rfl

/-- The comments that a run of calls hands out are documentation comments of the text that have
    text, in the order of the text and each at most once. No lookup takes a comment without text out
    of the slot. -/
theorem handedOut_in_order (options : Options) (text : String) (calls : List Call) :
    ∃ layout : Layout, layout.Divides (Text.dropMark text.toList) ∧
      ((Text.docs options text.toList layout).Pairwise fun d e => d.2.length < e.2.length) ∧
      ((ofString options text).handedOut layout calls).Sublist
        ((Text.docs options text.toList layout).filter (·.1.hasText)) ∧
      ((ofString options text).run calls).1.filterMap docText =
        ((ofString options text).handedOut layout calls).map (·.1.text) ∧
      (∀ found ∈ ((ofString options text).run calls).1.filterMap docText, found ≠ "") ∧
      ∀ first call doc, call.IsLookup → ((ofString options text).run first).2.slot = some doc →
        doc.text = "" → ((ofString options text).run first).2.Spares layout call doc := by
  obtain ⟨layout, hlayout⟩ := Layout.exists_divides (Text.dropMark text.toList)
  have hstart := follows_ofString options hlayout
  obtain ⟨hsublist, htexts⟩ := hstart.handedOut calls
  have hdocs : ((ofString options text).handedOut layout calls).Sublist
      (Text.docs options text.toList layout) := by
    rwa [inSlot_of_none rfl] at hsublist
  have htext : ∀ d ∈ (ofString options text).handedOut layout calls, d.1.hasText := by
    intro d hd
    have hmem : d.1.text ∈ ((ofString options text).run calls).1.filterMap docText := by
      rw [← htexts]
      exact List.mem_map_of_mem hd
    exact Doc.hasText_iff.mpr (ne_empty_of_run hmem)
  refine ⟨layout, hlayout, Part.pairwise_docs, ?_, htexts.symm, fun found => ne_empty_of_run, ?_⟩
  · rw [← List.filter_eq_self.mpr htext]
    exact hdocs.filter _
  · intro first call doc hcall hslot hempty
    rcases hstart.run first with ⟨read, place, hfollows⟩ | hsilent
    · exact hfollows.spares hcall hslot hempty
    · cases hsilent.slot.symm.trans hslot

example : ((ofString {} "/// a\nx /// a\ny").run
    [.next, .leading, .trailing 2, .leading, .trailing 2]).1.filterMap docText = ["a", "a"] := by
  decide +kernel

end Session

end SchemaLex
