/-
Which files are served.  `do_request` joins the target to the document root as
it stands, without a look at its components; where the path leads is decided
by the normal form of the target.
-/
import LinuxLearning.Lib.Paths
import LinuxLearning.Webserver.Body
import LinuxLearning.Webserver.Process

namespace LinuxLearning.Webserver

open Lines CString

def dot : Byte := 46

/-- The directories on the way to a place, with '.' and '..' resolved. -/
def lead (path : List Byte) : List (List Byte) := Paths.resolve slash dot path

/-- The normal form of a target, as far as it fits behind the document root. -/
def wayOf (target : List Byte) : Paths.Normal (List Byte) :=
  Paths.normal (Paths.moves slash dot (target.take (FILENAME_LEN - docRoot.length - 1)))

/-- The target leads below the document root: what it climbs out of it comes
back through by name, and it goes on from there. -/
def Confined (target : List Byte) : Prop :=
  Paths.Below (Paths.climbed (wayOf target).ups (lead docRoot)) (wayOf target).names

instance (target : List Byte) : Decidable (Confined target) :=
  inferInstanceAs (Decidable (Paths.Below _ _))

/-- Where the path for a target leads. -/
theorem below_requestPath_iff {target : List Byte}
    (htarget : target = [] ∨ target.head? = some slash) :
    Paths.Below (lead docRoot) (lead (requestPath target)) ↔ Confined target := by
  apply Paths.below_resolve_iff
  cases target with
  | nil => exact Or.inl rfl
  | cons b target =>
      have hroom : FILENAME_LEN - docRoot.length - 1 = 162 + 1 := by decide
      rw [hroom, List.take_succ_cons]
      simpa using htarget

namespace HttpConn

/-- The string `m_url` points to. -/
def urlText (c : HttpConn) : List Byte :=
  match c.url with
  | some p => c.strAt p
  | none => []

/-- The path that `do_request` opens, when it gets that far. -/
def openedPath (fs : List Byte → FsAnswer) (c : HttpConn) : Option (List Byte) :=
  match c.doRequest fs with
  | (.fileRequest, after, _) => some (cstr after.realFile 0)
  | _ => none

/-- It is the path that was looked up. -/
theorem openedPath_eq {fs : List Byte → FsAnswer} {c : HttpConn} {path : List Byte}
    (h : c.openedPath fs = some path) : path = cstr c.buildPath.realFile 0 := by
  unfold openedPath at h
  split at h
  · rename_i after sys hfile
    have hsame := doRequest_realFile fs c
    rw [hfile] at hsame
    rw [← hsame]
    exact (Option.some.inj h).symm
  · cases h

/-- Stores behind the string leave it, and a NUL inside it cuts it. -/
theorem Points.storeNul {c : HttpConn} {pointer : Option Nat} {value : List Byte}
    (h : c.Points pointer (some value)) (i : Int) :
    ∃ p, pointer = some p ∧ (c.store i 0).strAt p <+: value ∧
      (c.checkedIdx ≤ i → (c.store i 0).strAt p = value) := by
  cases pointer with
  | none => exact h.elim
  | some p =>
      obtain ⟨⟨e, hclosed, hbefore⟩, hvalue⟩ := h
      refine ⟨p, rfl, ?_, ?_⟩
      · rw [← hvalue, strAt, HttpConn.store]
        split
        · exact cstr_poke_prefix c.readBuf p i.toNat
        · exact List.prefix_rfl
      · intro hbehind
        rw [← hvalue]
        symm
        apply cstr_congr hclosed.text_le hclosed.nul
        intro k _ hk
        rw [HttpConn.store]
        split
        · exact (Buffer.get_poke_of_ne _ (by omega) 0).symm
        · rfl

/-- `m_url` at the call of `do_request`: the target of the request line, which
only the NUL for a negative Content-Length can cut. -/
theorem oneShot_url (fellOff : Option HttpCode) (c : HttpConn) {request blank : List Byte}
    {headers : List (List Byte)} {body : List Byte} (h : IsHead request headers blank)
    (hfit : (headBytes request headers blank ++ body).length ≤ READ_BUFFER_SIZE) :
    ∃ target version p, RequestLine (cText request) target version ∧
      (oneShot fellOff c (headBytes request headers blank ++ body)).1.url = some p ∧
      (oneShot fellOff c (headBytes request headers blank ++ body)).1.strAt p <+: target ∧
      (0 ≤ (fieldsOf headers).contenLength →
        (oneShot fellOff c (headBytes request headers blank ++ body)).1.strAt p = target) := by
  obtain ⟨mid, htracks, hfields, hread⟩ := readRequest_head fellOff c h hfit
  obtain ⟨hchecked, hstart, -⟩ := htracks.lengths
  obtain ⟨target, version, hline, hurl, -⟩ := htracks.request request rfl
  have hmark : mid.awaitContent.markLine.Points mid.url (some target) :=
    hurl.mono rfl (Nat.le_refl _) fun _ _ => rfl
  obtain ⟨p, hp, hcut, hwhole⟩ := hmark.storeNul (mid.startLine + mid.contenLength)
  have hvalue : mid.strAt p = target := by
    rw [hp] at hurl
    exact hurl.2
  rw [oneShot, hread]
  by_cases hlength : (fieldsOf headers).contenLength = 0
  · rw [if_pos hlength]
    exact ⟨target, version, p, hline, hp, hvalue ▸ List.prefix_rfl, fun _ => hvalue⟩
  · rw [if_neg hlength, readRequest_awaitContent]
    split
    · -- the NUL behind the body
      refine ⟨target, version, p, hline, hp, hcut, fun hpositive => hwhole ?_⟩
      have hplace : (mid.awaitContent.markLine.checkedIdx : Int) = mid.startLine :=
        congrArg Int.ofNat hstart.symm
      rw [hplace, hfields.contenLength]
      omega
    · exact ⟨target, version, p, hline, hp, hvalue ▸ List.prefix_rfl, fun _ => hvalue⟩

/-- The path that is looked up is the one for what `m_url` points to. -/
theorem oneShot_path (fellOff : Option HttpCode) (c : HttpConn) {s : List Byte} {p : Nat}
    (hurl : (oneShot fellOff c s).1.url = some p) :
    cstr (oneShot fellOff c s).1.buildPath.realFile 0 =
      requestPath ((oneShot fellOff c s).1.strAt p) := by
  have houtput := readRequest_output fellOff (recvBytes s c.init)
  exact path_of_target hurl rfl (congrArg Output.realFile houtput)

/-- Where the file that is opened lies, for every stream, every cut and every
file system: below the document root exactly when the target does not lead out
of it. -/
theorem opened_below_iff (fs : List Byte → FsAnswer) (fellOff : Option HttpCode) (c : HttpConn)
    {chunks : List (List Byte)} (hfit : chunks.flatten.length ≤ READ_BUFFER_SIZE) {call : Call}
    (hcall : call ∈ calls fellOff c.init [] chunks) (hresult : call.result = .doRequest)
    {path : List Byte} (hopen : call.after.openedPath fs = some path) :
    (Paths.Below (lead docRoot) (lead path) ↔ Confined call.after.urlText) ∧
      ∃ request headers blank body target version, IsHead request headers blank ∧
        call.received = headBytes request headers blank ++ body ∧
        RequestLine (cText request) target version ∧ call.after.urlText <+: target ∧
        (0 ≤ (fieldsOf headers).contenLength → call.after.urlText = target) := by
  obtain ⟨hshot, hlen⟩ := calls_oneShot (init_resumes fellOff c) hfit call hcall
  have hreceived := Nat.le_trans hlen hfit
  have hafter : call.after = (oneShot fellOff c call.received).1 := congrArg Prod.fst hshot
  have hcalled : (oneShot fellOff c call.received).2 = .doRequest := by
    rw [← hshot]
    exact hresult
  obtain ⟨request, headers, blank, body, hhead, hbytes⟩ := oneShot_called hreceived hcalled
  rw [hbytes] at hreceived hafter
  obtain ⟨target, version, p, hline, hurl, hcut, hwhole⟩ :=
    oneShot_url fellOff c hhead hreceived
  have hpath := oneShot_path fellOff c hurl
  rw [← hafter] at hurl hcut hwhole hpath
  have htext : call.after.urlText = call.after.strAt p := by rw [urlText, hurl]
  rw [← htext] at hcut hwhole hpath
  refine ⟨?_, request, headers, blank, body, target, version, hhead, hbytes, hline, hcut,
    hwhole⟩
  rw [openedPath_eq hopen, hpath]
  apply below_requestPath_iff
  obtain ⟨method, gap, uri, gap', -, -, -, htarget⟩ := hline.parts
  obtain ⟨rest, hrest⟩ := hcut
  have hslash := htarget.head
  rw [← hrest] at hslash
  cases htext : call.after.urlText with
  | nil => exact Or.inl rfl
  | cons b text =>
      rw [htext] at hslash
      exact Or.inr hslash

/-- A regular file that everyone may read. -/
def plainFile : FsAnswer := ⟨some ⟨0o100644, 0⟩, true, none⟩

/-- On a file system with such a file everywhere, a request opens the path for
its target. -/
theorem exists_opened {request : List Byte} {target version : List Byte}
    (h : IsHead request [] []) (hline : RequestLine (cText request) target version)
    (hfit : (headBytes request [] [] ++ []).length ≤ READ_BUFFER_SIZE) :
    ∃ call ∈ calls none idle.init [] [headBytes request [] [] ++ []],
      call.result = .doRequest ∧
        call.after.openedPath (fun _ => plainFile) = some (requestPath target) := by
  obtain ⟨mid, target', version', hread, hline', hpath, -⟩ :=
    doRequest_from (c := idle) none h rfl hfit
  obtain ⟨rfl, -⟩ := hline'.unique hline
  refine ⟨_, first_call_mem none idle hfit [], congrArg Prod.snd hread, ?_⟩
  have hafter : (oneShot none idle (headBytes request [] [] ++ [])).1 = mid :=
    congrArg Prod.fst hread
  dsimp only
  rw [hafter, openedPath, @doRequest_file _ _ plainFile _ rfl rfl (by decide) (by decide),
    ← hpath]
  rfl

/-- For the plainest request. -/
theorem opened_below_iff_root :
    ∃ call ∈ calls none idle.init [] [headBytes rootRequest [] [] ++ []],
      Paths.Below (lead docRoot) (lead (requestPath (ascii "/"))) ↔
        Confined call.after.urlText := by
  have hfit := root_fits
  rw [← root_bytes] at hfit
  have htext : cText rootRequest = rootRequest := by decide
  obtain ⟨call, hcall, hresult, hopen⟩ :=
    exists_opened root_isHead (htext ▸ rootRequest_line) hfit
  have hflat : [headBytes rootRequest [] [] ++ []].flatten.length ≤ READ_BUFFER_SIZE := by
    simpa using hfit
  exact ⟨call, hcall, (opened_below_iff _ none idle hflat hcall hresult hopen).1⟩

/-- The request line of a request that leads out of the document root. -/
def upRequest : List Byte := ascii "GET /../notes HTTP/1.1"

theorem upRequest_line : RequestLine upRequest (ascii "/../notes") (ascii "HTTP/1.1") where
  parts := ⟨ascii "GET", ascii " ", ascii "/../notes", ascii " ",
    by decide, by decide, by decide, TargetOf.origin _⟩
  version_eq := by decide

/-- It is served. -/
theorem opened_above :
    ¬ ∀ (fs : List Byte → FsAnswer) (chunks : List (List Byte)) (call : Call) (path : List Byte),
      chunks.flatten.length ≤ READ_BUFFER_SIZE → call ∈ calls none idle.init [] chunks →
      call.result = .doRequest → call.after.openedPath fs = some path →
      Paths.Below (lead docRoot) (lead path) := by
  intro hall
  have hhead : IsHead upRequest [] [] := ⟨by decide, ⟨_, _, upRequest_line⟩, by simp, rfl⟩
  have hlen : (headBytes upRequest [] [] ++ []).length = 26 := by decide
  have hfit : (headBytes upRequest [] [] ++ []).length ≤ READ_BUFFER_SIZE := by
    rw [hlen]
    decide
  have htext : cText upRequest = upRequest := by decide
  obtain ⟨call, hcall, hresult, hopen⟩ := exists_opened hhead (htext ▸ upRequest_line) hfit
  have hbelow := hall _ _ call _ (by simpa using hfit) hcall hresult hopen
  exact absurd hbelow (by decide)

end HttpConn

end LinuxLearning.Webserver
