import Chance.Proofs.Worlds

/-!
# Plain programs

Programs without observations and without continuous laws.  Their kinds say more of them than
those of other programs.

* `Program.plain`         no `observe`, `normal` or `beta` node;
* `operands_of_plain`     what the kind of a result says of the operands;
* `facts_of_plain`        nothing in a plain program is continuous, only its truth values can come
                          from negations, and its doubles and distributions have no `sample` node
                          below them.
-/

namespace Chance

namespace StaticKind

/-- is nothing continuous about the kind? -/
def discrete : StaticKind → Bool
  | .continuous => false
  | .distribution .continuous => false
  | _ => true

/-- is a value of the kind the same in all worlds? -/
def sure : StaticKind → Bool
  | .float => true
  | .distribution _ => true
  | _ => false

end StaticKind

/-- operations that neither condition on their operands nor make a continuous law -/
def Operation.plain : Operation → Bool
  | .observe => false
  | .normal => false
  | .beta => false
  | _ => true

/-- what the kind of a plain operation's result says of the operands -/
theorem Operation.operands_of_plain {op : Operation} {ks : List StaticKind} {k : StaticKind}
    (plain : op.plain = true) (h : op.kind? ks = some k) :
    ((∀ i ∈ ks, i.discrete = true) → k.discrete = true) ∧
    (k ≠ .bool → op ≠ .not ∧ ∀ i ∈ ks, i ≠ .bool) ∧
    (k.sure = true → op ≠ .sample ∧ ∀ i ∈ ks, i.sure = true) := by
  rcases ks with _ | ⟨l, _ | ⟨r, _ | ⟨i, ks⟩⟩⟩
  · cases op <;> cases h
  · cases op with
    | not => cases l <;> cases h; decide
    | bernoulli => cases l <;> cases h; decide
    | flip => cases l <;> cases h; decide
    | sample => cases l with
      | distribution of => cases h; cases of <;> decide
      | _ => cases h
    | _ => cases h
  · cases op with
    | observe => cases plain
    | normal => cases plain
    | beta => cases plain
    | _ => cases l <;> cases r <;> cases h <;> decide
  · cases op <;> cases h

namespace Program

mutual

/-- does a program consist of plain operations? -/
def plain : Program → Bool
  | .const _ => true
  | .call op args => op.plain && plainAll args

def plainAll : List Program → Bool
  | [] => true
  | a :: as => plain a && plainAll as

end

mutual

/-- what the kind of a plain program says of it: nothing in it is continuous, only truth values
come from negations, and doubles and distributions are the same in all worlds -/
theorem facts_of_plain : ∀ {p : Program} {k : StaticKind}, p.plain = true → p.kind? = some k →
    k.discrete = true ∧ (k ≠ .bool → p.loosened = p) ∧ (k.sure = true → p.samples = 0)
  | .const j, k, _, h => by
    rw [kind?] at h
    split at h
    · next l _ =>
      cases h
      refine ⟨?_, fun _ => by rw [loosened], fun _ => by rw [samples]⟩
      cases l <;> rfl
    · cases h
  | .call op args, k, hp, h => by
    rw [plain, Bool.and_eq_true] at hp
    obtain ⟨ks, hks, hk⟩ := kind?_call h
    obtain ⟨discrete, loose, sure⟩ := factsAll_of_plain hp.2 hks
    obtain ⟨toDiscrete, toLoose, toSure⟩ := Operation.operands_of_plain hp.1 hk
    refine ⟨toDiscrete discrete, fun notBool => ?_, fun isSure => ?_⟩
    · obtain ⟨other, operands⟩ := toLoose notBool
      rw [loosened, loose operands, loosenedCall_of_ne other]
    · obtain ⟨other, operands⟩ := toSure isSure
      rw [samples, sure operands, Operation.samples, if_neg other]

theorem factsAll_of_plain : ∀ {ps : List Program} {ks : List StaticKind}, plainAll ps = true →
    kinds? ps = some ks → (∀ i ∈ ks, i.discrete = true) ∧
      ((∀ i ∈ ks, i ≠ .bool) → loosenedAll ps = ps) ∧
      ((∀ i ∈ ks, i.sure = true) → samplesAll ps = 0)
  | [], ks, _, h => by
    rw [kinds?] at h
    cases h
    exact ⟨fun i hi => absurd hi List.not_mem_nil, fun _ => by rw [loosenedAll],
      fun _ => by rw [samplesAll]⟩
  | a :: as, ks, hp, h => by
    rw [plainAll, Bool.and_eq_true] at hp
    obtain ⟨i, is, hi, his, rfl⟩ := kinds?_cons h
    obtain ⟨discrete, loose, sure⟩ := facts_of_plain hp.1 hi
    obtain ⟨discreteAll, looseAll, sureAll⟩ := factsAll_of_plain hp.2 his
    simp only [List.forall_mem_cons]
    refine ⟨⟨discrete, discreteAll⟩, fun notBool => ?_, fun isSure => ?_⟩
    · rw [loosenedAll, loose notBool.1, looseAll notBool.2]
    · rw [samplesAll, sure isSure.1, sureAll isSure.2]

end

end Program

end Chance
