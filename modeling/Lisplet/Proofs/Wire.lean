import Lisplet.Proofs.Answers
import Lisplet.Proofs.JsonText
import Lisplet.Proofs.Sessions

/-!
# What goes over the wire

A request to run code may be spelled in many ways: its code may have every character escaped, or none
that need not be. The server takes all these texts as the same request, and its answer is one line of
ASCII characters that is decoded as an object with what the run came to, character for character.

Main definitions: `EncodesRequest`, `requestText`, `Carries`. Main statement:
`Server.answerLine_lossless`.
-/

namespace Lisplet

/-! ## Requests -/

/-- The fields of a request to run code. -/
def requestFields (code : String) : List (Json.Letters × Json) :=
  [("cmd", .str "eval"), ("code", .str code)]

/-- The text spells an object with the fields of a request to run the code, in either order. -/
def EncodesRequest (code : String) (cs : List Char) : Prop :=
  Json.Lexed cs (Json.objectLexemes (requestFields code)) ∨
    Json.Lexed cs (Json.objectLexemes (requestFields code).reverse)

/-- The text of a request to run code, where characters are written in this way. -/
def requestText (esc : Char → List Char) (code : String) : List Char :=
  '\x7b' :: Json.commaSeparated
    [Json.quoteWith esc "cmd" ++ ':' :: ' ' :: Json.quoteWith esc "eval",
      Json.quoteWith esc "code" ++ ':' :: ' ' :: Json.quoteWith esc code] ++ ['\x7d']

/-- With all characters escaped that are not ASCII, it is the text of the object of the request. -/
theorem requestText_escapeChar (code : String) :
    requestText Json.escapeChar code = (Json.obj (requestFields code)).write := by
  simp only [requestText, Json.quoteWith_escapeChar]
  rfl

theorem encodesRequest_requestText {esc : Char → List Char} (h : Json.Spelling esc) (code : String) :
    EncodesRequest code (requestText esc code) := by
  apply Or.inl
  apply Json.lexed_object
  have hcmd : Json.Lexed _ (Json.fieldLexemes ("cmd", .str "eval")) :=
    Json.lexed_field (h.lexed "cmd") (h.lexed "eval")
  have hcode : Json.Lexed _ (Json.fieldLexemes ("code", .str code)) :=
    Json.lexed_field (h.lexed "code") (h.lexed code)
  exact .cons hcmd (.cons hcode .nil)

@[simp]
theorem Json.textOf_lettersOf (s : String) : textOf (lettersOf s) = s := by
  rw [textOf, lettersOf, List.map_map, show (_ ∘ Letter.char) = id from rfl, List.map_id,
    String.ofList_toList]

@[simp]
theorem Json.lettersOf_inj {s t : String} : lettersOf s = lettersOf t ↔ s = t := by
  constructor
  · intro h
    rw [← textOf_lettersOf s, h, textOf_lettersOf]
  · rintro rfl
    rfl

/-- The bytes of every text of a request to run code are decoded as an object with its two fields. -/
theorem EncodesRequest.decode {limit : Nat} {code : String} {cs : List Char}
    (h : EncodesRequest code cs) (hlimit : 0 < limit) :
    Text.Utf8.decode (Text.Utf8.encode (String.ofList cs)) = .ok cs ∧
      ∃ fields, Json.decode limit cs = .ok (.obj fields) ∧
        Json.field? fields "cmd" = some (.str "eval") ∧ Json.field? fields "code" = some (.str code) := by
  refine ⟨by rw [Text.Utf8.decode_encode, String.toList_ofList], ?_⟩
  have hnames : (["cmd", "code"].map Json.lettersOf).Nodup := by decide
  have hreversed : (["code", "cmd"].map Json.lettersOf).Nodup := by decide
  -- The fields are looked up by name, so their order is of no matter.
  rcases h with h | h
  · exact ⟨_, h.decode_object hnames hlimit, rfl, rfl⟩
  · exact ⟨_, h.decode_object hreversed hlimit, rfl, rfl⟩

/-- Every text of a request to run code makes that request. -/
theorem EncodesRequest.ofLine {limit : Nat} {code : String} {cs : List Char}
    (h : EncodesRequest code cs) (hlimit : 0 < limit) :
    Request.ofLine limit (Text.Utf8.encode (String.ofList cs)) = .value (.eval code) := by
  obtain ⟨hbytes, fields, hdecode, hcmd, hcode⟩ := h.decode hlimit
  have heval : (Json.str "eval").isText "eval" = true := by decide
  simp only [Request.ofLine, hbytes, hdecode, Request.ofFields, hcmd, hcode, Option.getD_some, heval,
    if_true, Json.textOf_lettersOf]
  rfl

/-! ## Answers -/

/-- The bytes of the line are a text of the document: they are decoded as it. -/
def Carries (line : String) (v : Json) : Prop :=
  ∃ cs, Text.Utf8.decode (Text.Utf8.encode line) = .ok cs ∧
    ∀ limit, 0 < limit → Json.decode limit cs = .ok v

theorem Carries.unique {line : String} {v w : Json} (hv : Carries line v) (hw : Carries line w) :
    v = w := by
  obtain ⟨cs, hcs, hv⟩ := hv
  obtain ⟨ds, hds, hw⟩ := hw
  obtain rfl : cs = ds := by simpa [hcs] using hds
  simpa [hv 1 Nat.one_pos] using hw 1 Nat.one_pos

/-- The line with the text of an object of strings and constants carries the object, as it is read
back. -/
theorem carries_write {fields read : List (Json.Letters × Json)} (hatoms : ∀ p ∈ fields, Json.IsAtom p.2)
    (hread : fields.map Json.joinField = read) (hnodup : (read.map Prod.fst).Nodup) :
    Carries (String.ofList ((Json.obj fields).write ++ ['\n'])) (.obj read) := by
  refine ⟨_, by rw [Text.Utf8.decode_encode, String.toList_ofList], fun limit hlimit => ?_⟩
  -- The line feed is a space behind the object.
  have hfeed : Json.Lexed ['\n'] [] := .space (by simp) .nil
  have hline := (Json.lexed_write_object hatoms).append hfeed
  rw [List.append_nil, hread] at hline
  exact hline.decode_object hnodup hlimit

namespace Response

/-- The line of a success carries the result, character for character. -/
theorem carries_success (result : String) :
    Carries (success result).line (.obj [("ok", .bool true), ("result", .str result)]) := by
  have hnames : (["ok", "result"].map Json.lettersOf).Nodup := by decide
  exact carries_write (by simp [Json.IsAtom]) (by simp [Json.joinField, Json.joinAtom]) hnames

/-- The line of a failure carries the error and the class. Halves in the error that make a pair are
joined. -/
theorem carries_failure (error : Json.Letters) (label : String) :
    Carries (failure error label).line
      (.obj [("ok", .bool false), ("error", .str (Json.joinPairs error)), ("type", .str label)]) := by
  have hnames : (["ok", "error", "type"].map Json.lettersOf).Nodup := by decide
  exact carries_write (by simp [Json.IsAtom]) (by simp [Json.joinField, Json.joinAtom]) hnames

/-- The message of a fault is a text and has no halves in it, so it is carried character for character. -/
theorem carries_fault (f : Fault) : Carries (ofResult (.error f)).line
    (.obj [("ok", .bool false), ("error", .str f.message), ("type", .str f.kind.label)]) := by
  have hline := carries_failure f.message f.kind.label
  rw [Json.joinPairs_lettersOf] at hline
  exact hline

/-- A response is an object of strings and constants. -/
theorem toJson_eq_obj (r : Response) :
    ∃ fields, r.toJson = .obj fields ∧ ∀ p ∈ fields, Json.IsAtom p.2 := by
  cases r with
  | success result => exact ⟨_, rfl, by simp [Json.IsAtom]⟩
  | failure error label => exact ⟨_, rfl, by simp [Json.IsAtom]⟩

/-- The bytes of the line of a response are ASCII, and the only line feed is the last of them. -/
theorem line_bytes (r : Response) : (∀ b ∈ Text.Utf8.encode r.line, b < 128) ∧
    ∃ front, Text.Utf8.encode r.line = front ++ [lineFeed] ∧ lineFeed ∉ front := by
  obtain ⟨fields, hfields, hatoms⟩ := r.toJson_eq_obj
  have hprintable : Json.Printable r.toJson.write := by
    rw [hfields]
    exact Json.printable_write_object hatoms
  have hascii : ∀ c ∈ r.toJson.write ++ ['\n'], c.toNat < 128 := by
    intro c hc
    rcases List.mem_append.1 hc with hc | hc
    · have := hprintable c hc
      omega
    · rw [List.mem_singleton.1 hc]
      decide
  rw [line, Text.Utf8.encode_ascii hascii]
  constructor
  · intro b hb
    obtain ⟨c, hc, rfl⟩ := List.mem_map.1 hb
    have hlt := hascii c hc
    rw [UInt8.lt_iff_toNat_lt, Text.Utf8.toNat_byte (by omega)]
    exact hlt
  · refine ⟨r.toJson.write.map fun c => UInt8.ofNat c.toNat, by simp [lineFeed], ?_⟩
    intro hmem
    obtain ⟨c, hc, hfeed⟩ := List.mem_map.1 hmem
    have hlow := hprintable c hc
    have htoNat := congrArg UInt8.toNat hfeed
    rw [Text.Utf8.toNat_byte (by omega)] at htoNat
    have hten : lineFeed.toNat = 10 := rfl
    omega

end Response

/-- **Nothing is lost on the wire.** For every server, on every machine, and for every code: whatever
text spells the request to run it, the bytes of the text are answered with the same line, and with the
effects of the request. Among these texts are the one that is all ASCII and the one that leaves all
characters as they are that need no escape. The bytes of the line are ASCII, and its only line feed is the
last of them. Decoding them gives the object of the response to the request: with the result of the run,
or with the message and the class of its fault, character for character. -/
theorem Server.answerLine_lossless {limit : Nat} (hlimit : 0 < limit) (s : Server) (code : String)
    (m : Machine) :
    ∃ response line m',
      s.respond limit (.ofFields (requestFields code)) m = (.value response, m') ∧
      (∀ cs, EncodesRequest code cs →
        s.answerLine limit (Text.Utf8.encode (String.ofList cs)) m = (.value line, m')) ∧
      EncodesRequest code (requestText Json.escapeChar code) ∧
      Json.Printable (requestText Json.escapeChar code) ∧
      EncodesRequest code (requestText Json.escapeRaw code) ∧
      (∀ b ∈ Text.Utf8.encode line, b < 128) ∧
      (∃ front, Text.Utf8.encode line = front ++ [lineFeed] ∧ lineFeed ∉ front) ∧
      ((∃ result : String, (s.session.run limit code m).1 = .value result ∧
          response = .success result ∧
          Carries line (.obj [("ok", .bool true), ("result", .str result)])) ∨
        ∃ f : Fault, (s.session.run limit code m).1 = .fault f ∧
          response = .failure f.message f.kind.label ∧
          Carries line (.obj [("ok", .bool false), ("error", .str f.message),
            ("type", .str f.kind.label)])) := by
  obtain ⟨r, m₁, hrun⟩ := s.session.run_concludes limit code m
  obtain ⟨log, hrespond⟩ := respond_eval hrun
  have hrequest : Request.ofFields (requestFields code) = .eval code := by
    show Request.eval (Json.textOf (Json.lettersOf code)) = _
    rw [Json.textOf_lettersOf]
  obtain ⟨hascii, hfeed⟩ := (Response.ofResult r).line_bytes
  refine ⟨_, (Response.ofResult r).line, _, by rw [hrequest, hrespond], ?_,
    encodesRequest_requestText Json.escapeChar_spelling code, ?_,
    encodesRequest_requestText Json.escapeRaw_spelling code, hascii, hfeed, ?_⟩
  · intro cs hcs
    rw [Server.answerLine, hcs.ofLine hlimit, Run.bind_of_value _ (Run.lift_apply _ m),
      Run.bind_of_value _ hrespond]
    rfl
  · rw [requestText_escapeChar]
    exact Json.printable_write_object (by simp [requestFields, Json.IsAtom])
  · rw [hrun]
    cases r with
    | ok result => exact Or.inl ⟨result, rfl, rfl, Response.carries_success result⟩
    | error f => exact Or.inr ⟨f, rfl, rfl, Response.carries_fault f⟩

/-- Two codes with a quote and a character outside the basic plane, one of which gives a result and one
fails. For each, the text that escapes the character by two units and the text that has it as it is get
the same answer. -/
theorem Server.answerLine_lossless_escapes :
    let s : Server := ⟨⟨"localhost", 7000⟩, ⟨0⟩⟩
    let m := (Machine.new .warning).withStandard
    let answer esc code := (s.answerLine 9 (Text.Utf8.encode (String.ofList (requestText esc code))) m).1
    0 < 9 ∧
      (∃ line, answer Json.escapeChar "(quote\n\"\\𝄞)" = .value line ∧
        answer Json.escapeRaw "(quote\n\"\\𝄞)" = .value line ∧
        Carries line (.obj [("ok", .bool true), ("result", .str "\"\\𝄞")])) ∧
      ∃ line, answer Json.escapeChar "\"𝄞" = .value line ∧ answer Json.escapeRaw "\"𝄞" = .value line ∧
        Carries line (.obj [("ok", .bool false), ("error", .str "\"𝄞 is undefined"),
          ("type", .str "UnboundSymbolError")]) := by
  intro s m answer
  refine ⟨by decide, ?_, ?_⟩
  · obtain ⟨_, line, m', -, hanswer, hescaped, -, hraw, -, -, hline⟩ :=
      Server.answerLine_lossless (show 0 < 9 by decide) s "(quote\n\"\\𝄞)" m
    have heval : ((Session.mk 0).eval 9 "(quote\n\"\\𝄞)" (Machine.new .warning).withStandard).1 =
        .value (.symbol "\"\\𝄞") := by with_unfolding_all rfl
    have hrun : s.session.run 9 "(quote\n\"\\𝄞)" m = (.value "\"\\𝄞", _) :=
      Session.run_of_eval heval rfl
    refine ⟨line, congrArg Prod.fst (hanswer _ hescaped), congrArg Prod.fst (hanswer _ hraw), ?_⟩
    rw [hrun] at hline
    rcases hline with ⟨result, hresult, -, hcarries⟩ | ⟨f, hf, -⟩
    · cases hresult
      exact hcarries
    · cases hf
  · obtain ⟨_, line, m', -, hanswer, hescaped, -, hraw, -, -, hline⟩ :=
      Server.answerLine_lossless (show 0 < 9 by decide) s "\"𝄞" m
    have hrun : ((Session.mk 0).run 9 "\"𝄞" (Machine.new .warning).withStandard).1 =
        .fault (.unbound "\"𝄞") := by with_unfolding_all rfl
    refine ⟨line, congrArg Prod.fst (hanswer _ hescaped), congrArg Prod.fst (hanswer _ hraw), ?_⟩
    rcases hline with ⟨result, hresult, -⟩ | ⟨f, hf, -, hcarries⟩
    · cases hrun.symm.trans hresult
    · cases hrun.symm.trans hf
      exact hcarries

end Lisplet
