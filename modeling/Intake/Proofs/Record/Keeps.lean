import Intake.Proofs.Arena
import Intake.Record.Decode

/-!
# What a scan keeps

A property of the state that every step of a scan keeps holds of the state in which the scan ends,
whether it succeeds or gives up. The arena of an account keeps its capacity, so an account that was
decoded into is as good as a new one.
-/

namespace Intake.Record

/-- The state in which a scan ended. -/
def Reply.state {σ α : Type} : Reply σ α → σ
  | .ok _ s _ => s
  | .stop _ s => s

namespace Scan

variable {σ τ α β : Type} {I : σ → Prop}

/-- The scan does not break `I`. -/
def Keeps (I : σ → Prop) (x : Scan σ α) : Prop :=
  ∀ s c, I s → I (x.run s c).state

theorem keeps_position : Keeps I (position : Scan σ Nat) := fun _ _ h => h

theorem keeps_skipSpace : Keeps I (skipSpace : Scan σ Unit) := fun _ _ h => h

theorem keeps_fail (fault : Fault) : Keeps I (fail fault : Scan σ α) := fun _ _ h => h

theorem keeps_modify {f : σ → σ} (hf : ∀ s, I s → I (f s)) : Keeps I (modify f) := fun s _ => hf s

theorem keeps_bind {x : Scan σ α} {f : α → Scan σ β} (hx : Keeps I x) (hf : ∀ a, Keeps I (f a)) :
    Keeps I (x >>= f) := by
  intro s c hs
  have hxs := hx s c hs
  rw [run_bind]
  cases hrun : x.run s c with
  | stop why s' =>
      rw [hrun] at hxs
      exact hxs
  | ok a s' d =>
      rw [hrun] at hxs
      exact hf a s' d hxs

theorem keeps_read {f : Cursor → Read α} {hf : Forward f} : Keeps I (read f hf : Scan σ α) := by
  intro s c hs
  simp only [read]
  split <;> exact hs

theorem keeps_withState {init : τ} {x : Scan τ α} : Keeps I (withState init x : Scan σ (α × τ)) := by
  intro s c hs
  simp only [withState]
  split <;> exact hs

theorem keeps_list {close : UInt8} {item : Scan σ Unit} (hitem : Keeps I item) :
    Keeps I (list close item) := by
  have hitems : ∀ s c, I s → I (runItems close item s c).state := by
    intro s c
    fun_induction runItems close item s c with
    | case1 s c why s' hi =>
        intro hs
        have hkeep := hitem s c hs
        rwa [hi] at hkeep
    | case3 s c _ s' d hi tail hd _ ih =>
        intro hs
        have hkeep := hitem s c hs
        rw [hi] at hkeep
        exact ih hkeep
    | case2 s c _ s' d hi | case4 s c _ s' d hi | case5 s c _ s' d hi =>
        intro hs
        have hkeep := hitem s c hs
        rwa [hi] at hkeep
  intro s c hs
  show I (runList close item s c).state
  unfold runList
  split
  · exact hs
  · split
    · exact hs
    · exact hitems s _ hs

theorem keeps_elements {element : Scan σ Unit} (h : Keeps I element) : Keeps I (elements element) :=
  keeps_bind keeps_read fun _ => keeps_list h

theorem keeps_members {member : Bytes → Scan σ Unit} (h : ∀ key, Keeps I (member key)) :
    Keeps I (members member) :=
  keeps_bind keeps_read fun _ =>
    keeps_list (keeps_bind keeps_read fun key => keeps_bind keeps_read fun _ => h key)

end Scan

/-! ### What a scan writes -/

/-- A string that is read is written piece by piece. -/
theorem extendAll_of_quoted {cs : Bool} {arena written : Arena} {c d : Cursor} {span : Span}
    (h : quoted cs arena c = .ok ((span, written), d)) :
    span = written.finish arena.cursor ∧ ∃ pieces, arena.extendAll pieces = .ok written := by
  unfold quoted at h
  split at h
  · cases h
  split at h
  · cases h
  next hdecode =>
    cases h
    simp only [Quoted.decode] at hdecode
    split at hdecode
    · cases hdecode
    next hext =>
      split at hdecode
      · cases hdecode
        exact ⟨rfl, _, hext⟩
      · cases hdecode
      · cases hdecode

namespace Scan

variable (options : Options) (n : Nat)

theorem text_run (s : Account) (c : Cursor) : (text options).run s c =
    match quoted options.combineSurrogates s.arena c with
    | .error why => .stop why s
    | .ok ((span, arena), d) => .ok span { s with arena } d := by
  simp only [text, run_bind, get, read]
  cases quoted options.combineSurrogates s.arena c <;> rfl

theorem scratch_run (s : Account) (c : Cursor) : (scratch options).run s c =
    match quoted options.combineSurrogates s.arena c with
    | .error why => .stop why s
    | .ok ((span, arena), d) => .ok (arena.view span) s d := by
  simp only [scratch, run_bind, get, read]
  cases quoted options.combineSurrogates s.arena c <;> rfl

theorem keeps_scratch {I : Account → Prop} : Keeps I (scratch options) := by
  intro s c hs
  rw [scratch_run]
  split <;> exact hs

theorem keeps_text_modify {I : Account → Prop} {f : Span → Account → Account}
    (hf : ∀ a arena pieces, I a → a.arena.extendAll pieces = .ok arena →
      I (f (arena.finish a.arena.cursor) { a with arena })) :
    Keeps I (text options >>= fun span => modify (f span)) := by
  intro s c hs
  rw [run_bind, text_run]
  cases hquoted : quoted options.combineSurrogates s.arena c with
  | error why => exact hs
  | ok found =>
      obtain ⟨⟨span, arena⟩, d⟩ := found
      obtain ⟨rfl, pieces, hext⟩ := extendAll_of_quoted hquoted
      exact hf s arena pieces hs hext

/-- Besides the texts, the interests and the premium time no field has to do with a span or an end of
that time. -/
theorem keeps_value {I : Account → Prop}
    (hsame : ∀ a b : Account, b.arena = a.arena → b.texts = a.texts →
      b.interestPosts = a.interestPosts → b.premium = a.premium → I a → I b)
    (htext : ∀ field, Keeps I (text options >>= fun span => modify (·.setText field span)))
    (hinterests : Keeps I (interests options)) (hpremium : Keeps I (premium options))
    (field : Field) : Keeps I (value options field) := by
  cases field with
  | id => exact keeps_bind keeps_read fun _ => keeps_modify fun a => hsame a _ rfl rfl rfl rfl
  | sex =>
      refine keeps_bind keeps_position fun _ => keeps_bind (keeps_scratch options) fun bs => ?_
      cases Sex.ofCode? bs with
      | none => exact keeps_fail _
      | some sex => exact keeps_modify fun a => hsame a _ rfl rfl rfl rfl
  | status =>
      refine keeps_bind keeps_position fun _ => keeps_bind (keeps_scratch options) fun bs => ?_
      cases Status.ofLiteral? bs with
      | none => exact keeps_fail _
      | some status => exact keeps_modify fun a => hsame a _ rfl rfl rfl rfl
  | text field => exact htext field
  | birth => exact keeps_bind keeps_read fun _ => keeps_modify fun a => hsame a _ rfl rfl rfl rfl
  | joined => exact keeps_bind keeps_read fun _ => keeps_modify fun a => hsame a _ rfl rfl rfl rfl
  | premium => exact hpremium
  | interests => exact hinterests
  | likes =>
      refine keeps_bind (keeps_modify fun a => hsame a _ rfl rfl rfl rfl) fun _ => keeps_elements ?_
      refine keeps_bind keeps_position fun _ => keeps_bind keeps_withState fun found => ?_
      obtain ⟨_, id, timestamp⟩ := found
      cases id with
      | none => exact keeps_fail _
      | some id =>
          cases timestamp with
          | none => exact keeps_fail _
          | some timestamp => exact keeps_modify fun a => hsame a _ rfl rfl rfl rfl

theorem keeps_record {I : Account → Prop} (h : ∀ field, Keeps I (value options field)) :
    Keeps I (record options) := by
  refine keeps_members fun key => keeps_bind keeps_skipSpace fun _ => ?_
  cases Field.ofName? key with
  | none => exact keeps_read
  | some field => exact h field

theorem keeps_capacity : Keeps (·.arena.capacity = n) (record options) := by
  have hwrite : ∀ (a : Account) arena pieces, a.arena.capacity = n →
      a.arena.extendAll pieces = .ok arena → arena.capacity = n :=
    fun _ _ _ ha hext => (Arena.capacity_extendAll hext).trans ha
  refine keeps_record options (keeps_value options ?_ ?_ ?_ ?_)
  · intro a b harena _ _ _ ha
    rw [harena]
    exact ha
  · exact fun _ => keeps_text_modify options hwrite
  · exact keeps_bind (keeps_modify fun _ h => h) fun _ =>
      keeps_elements (keeps_text_modify options hwrite)
  · exact keeps_bind keeps_withState fun _ => keeps_modify fun _ h => h

end Scan

/-! ### Decoding into an account that was used before -/

/-- The account that decoding starts from. -/
def emptied (account : Account) : Account := { arena := account.arena.reset }

/-- What the decoder makes of a scan. -/
def Reply.decoded : Reply Account Unit → Decoded
  | .ok _ account after => ⟨.ok (.complete after.pos), account⟩
  | .stop (.incomplete missing) account => ⟨.ok (.incomplete missing), account⟩
  | .stop (.fault fault) account => ⟨.error fault, account⟩

@[simp] theorem Reply.account_decoded (reply : Reply Account Unit) :
    reply.decoded.account = reply.state := by
  match reply with
  | .ok .. => rfl
  | .stop (.incomplete _) _ => rfl
  | .stop (.fault _) _ => rfl

theorem decode_eq (options : Options) (account : Account) (input : Bytes) :
    decode options account input =
      ((Scan.record options).run (emptied account) (.start input)).decoded := by
  show (match (Scan.record options).run (emptied account) (.start input) with
    | .ok _ account after => (⟨.ok (.complete after.pos), account⟩ : Decoded)
    | .stop (.incomplete missing) account => ⟨.ok (.incomplete missing), account⟩
    | .stop (.fault fault) account => ⟨.error fault, account⟩) = _
  match (Scan.record options).run (emptied account) (.start input) with
  | .ok .. => rfl
  | .stop (.incomplete _) _ => rfl
  | .stop (.fault _) _ => rfl

theorem capacity_decode (options : Options) (account : Account) (input : Bytes) :
    (decode options account input).account.arena.capacity = account.arena.capacity := by
  rw [decode_eq, Reply.account_decoded]
  exact Scan.keeps_capacity options account.arena.capacity (emptied account) (.start input) rfl

/-- Of the account it decodes into, the decoder looks at the capacity only. -/
theorem decode_congr (options : Options) {a b : Account} (h : a.arena.capacity = b.arena.capacity)
    (input : Bytes) : decode options a input = decode options b input := by
  have hempty : emptied a = emptied b := by
    simp only [emptied, Arena.reset, h]
  rw [decode_eq, decode_eq, hempty]

end Intake.Record
