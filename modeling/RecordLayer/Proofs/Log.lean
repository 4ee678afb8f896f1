import RecordLayer.Proofs.Document.Reading
import RecordLayer.Proofs.Text.Order

/-!
# Log lines are faithful

A line holds no control character, so it is one line whatever the texts are that go into it, and it
is read back as one object whose members are those of the entry: the event, the severity and the
fields by key. Nothing in a key or a value can end its string, so no text forges a member, and what
two entries have in common when their lines are equal is everything that a line shows.
-/

namespace RecordLayer.LogEntry

/-! ## The order of the fields -/

theorem sortedFields_perm (e : LogEntry) : e.sortedFields.Perm e.fields := List.mergeSort_perm _ _

theorem keys_trans (a b c : String × String) (hab : Text.le a.1 b.1 = true)
    (hbc : Text.le b.1 c.1 = true) : Text.le a.1 c.1 = true :=
  Text.le_trans hab hbc

theorem keys_total (a b : String × String) : (Text.le a.1 b.1 || Text.le b.1 a.1) = true :=
  Text.le_total a.1 b.1

theorem sortedFields_sorted (e : LogEntry) : e.sortedFields.Pairwise fun a b => a.1 ≤ b.1 :=
  (List.pairwise_mergeSort keys_trans keys_total e.fields).imp Text.le_iff.1

/-- Fields of one key keep their order. -/
theorem sortedFields_stable (e : LogEntry) (key : String) :
    e.sortedFields.filter (·.1 == key) = e.fields.filter (·.1 == key) := by
  have hsame : (e.fields.filter (·.1 == key)).Pairwise fun a b => Text.le a.1 b.1 = true := by
    refine List.pairwise_of_forall_mem_list fun a ha b hb => ?_
    have ha : a.1 = key := by simpa using (List.mem_filter.1 ha).2
    have hb : b.1 = key := by simpa using (List.mem_filter.1 hb).2
    rw [ha, hb]
    exact Text.le_iff.2 (String.le_refl key)
  -- fields of one key ascend as they came, and a stable sort keeps what ascends
  have hkept : (e.fields.filter (·.1 == key)).Sublist e.sortedFields :=
    List.sublist_mergeSort keys_trans keys_total hsame List.filter_sublist
  have hsub : (e.fields.filter (·.1 == key)).Sublist (e.sortedFields.filter (·.1 == key)) := by
    simpa only [List.filter_filter, Bool.and_self] using hkept.filter (·.1 == key)
  exact (hsub.eq_of_length ((e.sortedFields_perm.filter _).length_eq).symm).symm

/-! ## No control characters -/

theorem escapeChar_plain (c : Char) : ∀ d ∈ escapeChar c, isControl d = false := by
  have hhex : ∀ n < 16, isControl (Text.hexDigit n) = false := by decide
  have hdigit (k : Nat) := hhex (k % 16) (Nat.mod_lt k (by decide))
  simp only [escapeChar]
  split_ifs with hquote hslash hn hr ht hcontrol
  iterate 5 exact List.forall_mem_cons.2 ⟨by decide, List.forall_mem_singleton.2 (by decide)⟩
  · have hfront : isControl '\\' = false ∧ isControl 'u' = false := by decide
    simp [Text.hexFixed, hdigit, hfront]
  · simpa using hcontrol

theorem quote_plain (s : String) : ∀ c ∈ quote s, isControl c = false := by
  simp only [quote, List.forall_mem_append, List.forall_mem_cons, List.forall_mem_flatMap]
  exact ⟨⟨by decide, fun c _ => escapeChar_plain c⟩, by decide, fun _ h => nomatch h⟩

theorem writeMember_plain (m : String × String) : ∀ c ∈ writeMember m, isControl c = false := by
  simp only [writeMember, List.forall_mem_append, List.forall_mem_cons]
  exact ⟨quote_plain m.1, by decide, quote_plain m.2⟩

theorem members_plain : ∀ members : List (String × String),
    ∀ c ∈ [','].intercalate (members.map writeMember), isControl c = false
  | [] => by simp
  | [m] => by simpa using writeMember_plain m
  | m :: n :: members => by
    rw [List.map_cons, List.map_cons, List.intercalate_cons_cons, ← List.map_cons]
    simp only [List.forall_mem_append]
    have hcomma : ∀ c ∈ [','], isControl c = false := List.forall_mem_singleton.2 (by decide)
    exact ⟨⟨writeMember_plain m, hcomma⟩, members_plain (n :: members)⟩

theorem render_plain (e : LogEntry) : ∀ c ∈ e.render.toList, isControl c = false := by
  simp only [render, String.toList_ofList, List.forall_mem_append, List.forall_mem_cons]
  exact ⟨⟨by decide, members_plain e.members⟩, by decide, fun _ h => nomatch h⟩

/-! ## What a line is read as -/

/-- The object that a line holds. -/
def document (e : LogEntry) : Document :=
  .object (e.members.map fun m => (some m.1, .text (some m.2)))

theorem document_legible (e : LogEntry) : e.document.Legible := by
  refine .object ?_ ?_ <;> rw [List.forall_mem_map]
  · exact fun m _ => ⟨m.1, rfl⟩
  · exact fun m _ => .text m.2

theorem scan_quote (s : String) (rest : List Char) :
    Token.scanFrom .between (quote s ++ rest) =
      (Token.scanFrom .between rest).map (.text (some s) :: ·) := by
  rw [quote, List.append_assoc, List.singleton_append]
  exact Token.scan_quoted Token.escapes_line s rest

theorem scan_writeMember (m : String × String) (rest : List Char) :
    Token.scanFrom .between (writeMember m ++ rest) =
      (Token.scanFrom .between rest).map (.text (some m.1) :: .colon :: .text (some m.2) :: ·) := by
  rw [writeMember, List.append_assoc, List.cons_append, scan_quote, Token.scan_mark rfl, scan_quote,
    Option.map_map, Option.map_map]
  rfl

theorem scan_members (rest : List Char) : ∀ members : List (String × String),
    Token.scanFrom .between ([','].intercalate (members.map writeMember) ++ '\x7d' :: rest) =
      (Token.scanFrom .between rest).map
        (Document.memberTokens (members.map fun m => (some m.1, .text (some m.2))) ++
          .closeObject :: ·)
  | [] => Token.scan_mark rfl rest
  | [m] => by
    rw [List.map_singleton, List.intercalate_singleton, scan_writeMember, Token.scan_mark rfl,
      Option.map_map]
    rfl
  | m :: n :: members => by
    rw [List.map_cons, List.map_cons, List.intercalate_cons_cons, ← List.map_cons,
      List.append_assoc, List.append_assoc, scan_writeMember, List.singleton_append,
      Token.scan_mark rfl,
      scan_members rest (n :: members), Option.map_map, Option.map_map]
    rfl

theorem scan_render (e : LogEntry) : Token.scan e.render.toList = some e.document.tokens := by
  rw [render, String.toList_ofList, List.cons_append, Token.scan, Token.scan_mark rfl,
    scan_members []]
  simp only [Token.scanFrom, Option.map_some, document, Document.tokens, List.cons_append]

theorem parse_render (e : LogEntry) : Document.parse e.render = some e.document :=
  e.document_legible.parse_of_scan e.scan_render

theorem document_eq_iff {e f : LogEntry} : e.document = f.document ↔
    e.severity = f.severity ∧ e.event = f.event ∧ e.sortedFields = f.sortedFields := by
  have hname : ∀ s t : Severity, s.name = t.name ↔ s = t := by
    rintro (_ | _ | _ | _) (_ | _ | _ | _) <;> decide
  have hmember : Function.Injective fun m : String × String =>
      ((some m.1, .text (some m.2)) : Content × Document) := by
    rintro ⟨k, v⟩ ⟨k', v'⟩ h
    simpa using h
  rw [document, document, Document.object.injEq, hmember.list_map.eq_iff, members, members]
  simp only [List.cons.injEq, Prod.mk.injEq, true_and, hname]
  tauto

/-- **A log line is faithful.** It holds no control character; it is read back as one object whose
members are, in order, the event, the severity and the fields, each with its own texts; the fields
are the ones of the entry by key, those of one key in the order in which they were given; and lines
are equal just when severity, event and the fields by key are. -/
theorem render_faithful (e : LogEntry) :
    (∀ c ∈ e.render.toList, isControl c = false) ∧
      Document.parse e.render = some (.object
        ((some "event", .text (some e.event)) :: (some "severity", .text (some e.severity.name)) ::
          e.sortedFields.map fun m => (some m.1, .text (some m.2)))) ∧
      (e.sortedFields.Perm e.fields ∧ e.sortedFields.Pairwise (fun a b => a.1 ≤ b.1) ∧
        ∀ key, e.sortedFields.filter (·.1 == key) = e.fields.filter (·.1 == key)) ∧
      ∀ f : LogEntry, e.render = f.render ↔
        e.severity = f.severity ∧ e.event = f.event ∧ e.sortedFields = f.sortedFields := by
  refine ⟨e.render_plain, e.parse_render,
    ⟨e.sortedFields_perm, e.sortedFields_sorted, e.sortedFields_stable⟩, fun f => ⟨fun h => ?_, ?_⟩⟩
  · refine document_eq_iff.1 (Option.some.inj ?_)
    rw [← e.parse_render, ← f.parse_render, h]
  · rintro ⟨hseverity, hevent, hfields⟩
    rw [render, render, members, members, hseverity, hevent, hfields]

end RecordLayer.LogEntry
