/-
What a list of header lines makes of a connection: `m_linger` is cleared by
any line that asks for it, `m_conten_length` and `m_host` are those of the last
line with their name, and no line is read as another's.
-/
import LinuxLearning.Webserver.Head

namespace LinuxLearning.Webserver

open CString

/-- The line begins with the name, in any case. -/
def isNamed (name line : List Byte) : Bool := strncaseEq line name name.length

/-- The line asks for the connection to be closed. -/
def closes (line : List Byte) : Bool :=
  isNamed (ascii "Proxy-Connection:") line &&
    !strcaseEq (fieldValue line 17) (ascii "keep-alive")

/-- The last line with the name. -/
def lastNamed (name : List Byte) (lines : List (List Byte)) : Option (List Byte) :=
  (lines.filter (isNamed name)).getLast?

/-- The names `parse_headers` knows. -/
def fieldNames : List (List Byte) :=
  [ascii "Proxy-Connection:", ascii "Content-Length:", ascii "Host:"]

/-- The lines with each of the names are the same, in the same order: so it is
for a list and a reordering of it that keeps lines of one name in order. -/
def SameFields (lines lines' : List (List Byte)) : Prop :=
  ∀ name ∈ fieldNames, lines.filter (isNamed name) = lines'.filter (isNamed name)

theorem getLast?_filter_concat {α : Type} (named : α → Bool) (lines : List α) (line : α) :
    ((lines ++ [line]).filter named).getLast? =
      if named line then some line else (lines.filter named).getLast? := by
  rw [List.filter_append]
  split
  · rename_i hline
    simp [hline]
  · rename_i hline
    simp [hline]

theorem lastNamed_concat (name : List Byte) (lines : List (List Byte)) (line : List Byte) :
    lastNamed name (lines ++ [line]) =
      if isNamed name line then some line else lastNamed name lines :=
  getLast?_filter_concat (isNamed name) lines line

namespace HeaderFields

variable (fields : HeaderFields) (lines : List (List Byte))

theorem foldl_linger :
    (lines.foldl add fields).linger = (fields.linger && !lines.any closes) := by
  induction lines using List.reverseRecOn with
  | nil => simp
  | append_singleton lines line ih =>
      rw [List.foldl_append, List.foldl_cons, List.foldl_nil, add_linger, ih, List.any_append]
      have hname : isNamed (ascii "Proxy-Connection:") line =
          strncaseEq line (ascii "Proxy-Connection:") 17 := rfl
      cases hproxy : strncaseEq line (ascii "Proxy-Connection:") 17 <;>
        cases hvalue : strcaseEq (fieldValue line 17) (ascii "keep-alive") <;>
          simp [closes, hname, hproxy, hvalue]

theorem foldl_contenLength :
    (lines.foldl add fields).contenLength =
      match lastNamed (ascii "Content-Length:") lines with
      | some line => toInt32 (atol (fieldValue line 15))
      | none => fields.contenLength := by
  induction lines using List.reverseRecOn with
  | nil => rfl
  | append_singleton lines line ih =>
      rw [List.foldl_append, List.foldl_cons, List.foldl_nil, add_contenLength, ih,
        lastNamed_concat]
      have hname : isNamed (ascii "Content-Length:") line =
          strncaseEq line (ascii "Content-Length:") 15 := rfl
      rw [hname]
      split <;> rfl

theorem foldl_host :
    (lines.foldl add fields).host =
      match lastNamed (ascii "Host:") lines with
      | some line => some (fieldValue line 5)
      | none => fields.host := by
  induction lines using List.reverseRecOn with
  | nil => rfl
  | append_singleton lines line ih =>
      rw [List.foldl_append, List.foldl_cons, List.foldl_nil, add_host, ih, lastNamed_concat]
      have hname : isNamed (ascii "Host:") line = strncaseEq line (ascii "Host:") 5 := rfl
      rw [hname]
      split <;> rfl

/-- A line that closes is one with its name. -/
theorem any_closes : lines.any closes =
    (lines.filter (isNamed (ascii "Proxy-Connection:"))).any closes := by
  rw [List.any_filter]
  congr 1
  funext line
  rw [closes, ← Bool.and_assoc, Bool.and_self]

/-- Only the lines with the three names count, and their order among those of
one name. -/
theorem foldl_congr {lines lines' : List (List Byte)} (h : SameFields lines lines') :
    lines.foldl add fields = lines'.foldl add fields := by
  have hproxy := h (ascii "Proxy-Connection:") (by simp [fieldNames])
  have hlength := h (ascii "Content-Length:") (by simp [fieldNames])
  have hhost := h (ascii "Host:") (by simp [fieldNames])
  have hlinger : (lines.foldl add fields).linger = (lines'.foldl add fields).linger := by
    rw [foldl_linger, foldl_linger, any_closes, any_closes lines', hproxy]
  have hcontent :
      (lines.foldl add fields).contenLength = (lines'.foldl add fields).contenLength := by
    rw [foldl_contenLength, foldl_contenLength, lastNamed, lastNamed, hlength]
  have hfound : (lines.foldl add fields).host = (lines'.foldl add fields).host := by
    rw [foldl_host, foldl_host, lastNamed, lastNamed, hhost]
  calc lines.foldl add fields
      = ⟨(lines.foldl add fields).linger, (lines.foldl add fields).contenLength,
          (lines.foldl add fields).host⟩ := rfl
    _ = lines'.foldl add fields := by rw [hlinger, hcontent, hfound]

end HeaderFields

namespace HttpConn

/-- What the connection holds of the header lines so far. -/
def fields (c : HttpConn) : HeaderFields :=
  ⟨c.linger, c.contenLength, c.host.map c.strAt⟩

/-- The lines at these places are handed to `parse_headers`, one after the
other. -/
def feedHeaders (c : HttpConn) (texts : List Nat) : HttpConn :=
  texts.foldl (fun c text => (c.parseHeaders text).2) c

/-- A header line, wherever it stands, adds what it says and leaves the
buffer. -/
theorem parseHeaders_fields {c : HttpConn} {text : Nat} (hfield : c.strAt text ≠ []) :
    (c.parseHeaders text).2.fields = c.fields.add (c.strAt text) ∧
      (c.parseHeaders text).2.readBuf = c.readBuf := by
  have hget : c.readBuf.get text ≠ 0 := by
    rw [ne_eq, ← strAt_eq_nil_iff]
    exact hfield
  simp only [parseHeaders, hget, ↓reduceIte, HeaderFields.add]
  by_cases hproxy : strncaseEq (c.strAt text) (ascii "Proxy-Connection:") 17 = true
  · simp only [hproxy, ↓reduceIte, strAt_fieldValue (by decide) hproxy]
    split <;> exact ⟨rfl, rfl⟩
  simp only [hproxy, Bool.false_eq_true, ↓reduceIte]
  by_cases hcontent : strncaseEq (c.strAt text) (ascii "Content-Length:") 15 = true
  · simp only [hcontent, ↓reduceIte, strAt_fieldValue (by decide) hcontent]
    exact ⟨rfl, trivial⟩
  simp only [hcontent, Bool.false_eq_true, ↓reduceIte]
  by_cases hhost : strncaseEq (c.strAt text) (ascii "Host:") 5 = true
  · simp only [hhost, ↓reduceIte, fields, ← strAt_fieldValue (by decide) hhost]
    exact ⟨rfl, trivial⟩
  · simp only [hhost, Bool.false_eq_true, ↓reduceIte]
    exact ⟨trivial, trivial⟩

theorem feedHeaders_fields {c : HttpConn} {texts : List Nat}
    (hfield : ∀ text ∈ texts, c.strAt text ≠ []) :
    (c.feedHeaders texts).fields = (texts.map c.strAt).foldl HeaderFields.add c.fields ∧
      (c.feedHeaders texts).readBuf = c.readBuf := by
  induction texts generalizing c with
  | nil => exact ⟨rfl, rfl⟩
  | cons text texts ih =>
      obtain ⟨hadd, hbuf⟩ := parseHeaders_fields (hfield text List.mem_cons_self)
      have hsame : (c.parseHeaders text).2.strAt = c.strAt := by
        funext p
        rw [strAt, strAt, hbuf]
      obtain ⟨hrest, hbuf'⟩ := ih (c := (c.parseHeaders text).2) (by
        rw [hsame]
        exact fun other hother => hfield other (List.mem_cons_of_mem _ hother))
      rw [hsame, hadd] at hrest
      exact ⟨hrest, hbuf'.trans hbuf⟩

/-- A line with none of the names changes nothing. -/
theorem parseHeaders_unknown {c : HttpConn} {text : Nat} (hfield : c.strAt text ≠ [])
    (hnone : ∀ name ∈ fieldNames, isNamed name (c.strAt text) = false) :
    c.parseHeaders text = (.noRequest, c) := by
  have hget : c.readBuf.get text ≠ 0 := by
    rw [ne_eq, ← strAt_eq_nil_iff]
    exact hfield
  have hproxy : strncaseEq (c.strAt text) (ascii "Proxy-Connection:") 17 = false :=
    hnone _ (by simp [fieldNames])
  have hlength : strncaseEq (c.strAt text) (ascii "Content-Length:") 15 = false :=
    hnone _ (by simp [fieldNames])
  have hhost : strncaseEq (c.strAt text) (ascii "Host:") 5 = false :=
    hnone _ (by simp [fieldNames])
  simp [parseHeaders, hget, hproxy, hlength, hhost]

/-- The header lines of a request, handed to `parse_headers` from the state
after the request line: what they make of the connection, and that only the
order of lines with one name counts. -/
theorem headers_independent {c : HttpConn} {texts : List Nat}
    (hlinger : c.linger = true) (hlength : c.contenLength = 0) (hhost : c.host = none)
    (hfield : ∀ text ∈ texts, c.strAt text ≠ []) :
    ((c.feedHeaders texts).linger = false ↔ ∃ line ∈ texts.map c.strAt,
      isNamed (ascii "Proxy-Connection:") line = true ∧
        strcaseEq (fieldValue line 17) (ascii "keep-alive") = false) ∧
    (c.feedHeaders texts).contenLength =
      (match lastNamed (ascii "Content-Length:") (texts.map c.strAt) with
        | some line => toInt32 (atol (fieldValue line 15))
        | none => 0) ∧
    (c.feedHeaders texts).host.map (c.feedHeaders texts).strAt =
      (lastNamed (ascii "Host:") (texts.map c.strAt)).map (fieldValue · 5) ∧
    (∀ (other : HttpConn) (text : Nat), other.strAt text ≠ [] →
      (∀ name ∈ fieldNames, isNamed name (other.strAt text) = false) →
      other.parseHeaders text = (.noRequest, other)) ∧
    ∀ (c' : HttpConn) (texts' : List Nat), c'.linger = true → c'.contenLength = 0 →
      c'.host = none → (∀ text ∈ texts', c'.strAt text ≠ []) →
      SameFields (texts.map c.strAt) (texts'.map c'.strAt) →
      (c'.feedHeaders texts').fields = (c.feedHeaders texts).fields := by
  have hfields : c.fields = HeaderFields.initial := by
    simp [fields, hlinger, hlength, hhost, HeaderFields.initial]
  obtain ⟨hfeed, -⟩ := feedHeaders_fields hfield
  rw [hfields] at hfeed
  refine ⟨?_, ?_, ?_, fun _ _ => parseHeaders_unknown, ?_⟩
  · have := congrArg HeaderFields.linger hfeed
    rw [HeaderFields.foldl_linger] at this
    change (c.feedHeaders texts).linger = _ at this
    rw [this]
    simp [HeaderFields.initial, closes]
  · have := congrArg HeaderFields.contenLength hfeed
    rw [HeaderFields.foldl_contenLength] at this
    exact this
  · have := congrArg HeaderFields.host hfeed
    rw [HeaderFields.foldl_host] at this
    change (c.feedHeaders texts).host.map _ = _ at this
    rw [this]
    cases lastNamed (ascii "Host:") (texts.map c.strAt) <;> rfl
  · intro c' texts' hlinger' hlength' hhost' hfield' hsame
    have hfields' : c'.fields = HeaderFields.initial := by
      simp [fields, hlinger', hlength', hhost', HeaderFields.initial]
    rw [(feedHeaders_fields hfield').1, hfields', hfeed, HeaderFields.foldl_congr _ hsame]

/-- Four header lines as `parse_line` leaves them, two of them with one name. -/
def fourLines : List Byte :=
  ascii "Host: a" ++ 0 :: (ascii "Content-Length: 3" ++ 0 :: (ascii "Host: b" ++ 0 ::
    (ascii "Proxy-Connection: close" ++ [0])))

/-- The last of them counts. -/
theorem headers_independent_host :
    ((recvBytes fourLines idle.init).feedHeaders [0, 8, 26, 34]).host.map
      ((recvBytes fourLines idle.init).feedHeaders [0, 8, 26, 34]).strAt = some (ascii "b") ∧
    ((recvBytes fourLines idle.init).feedHeaders [0, 8, 26, 34]).contenLength = 3 ∧
    ((recvBytes fourLines idle.init).feedHeaders [0, 8, 26, 34]).linger = false := by
  have hlines : [0, 8, 26, 34].map (recvBytes fourLines idle.init).strAt =
      [ascii "Host: a", ascii "Content-Length: 3", ascii "Host: b",
        ascii "Proxy-Connection: close"] := by
    decide +kernel
  have hfield : ∀ text ∈ [0, 8, 26, 34], (recvBytes fourLines idle.init).strAt text ≠ [] := by
    intro text htext
    have hmem := List.mem_map_of_mem (f := (recvBytes fourLines idle.init).strAt) htext
    rw [hlines] at hmem
    intro hnil
    rw [hnil] at hmem
    revert hmem
    decide
  obtain ⟨hlinger, hlength, hhost, -⟩ := headers_independent rfl rfl rfl hfield
  rw [hlines] at hlinger hlength hhost
  refine ⟨hhost.trans (by decide), hlength.trans (by decide +kernel), hlinger.mpr ?_⟩
  exact ⟨ascii "Proxy-Connection: close", by simp, by decide, by decide⟩

end HttpConn

end LinuxLearning.Webserver
