import FastK.Writes
/-!
# Names of scoped series

A derived series is stored under a scalar key whose name joins the timeframe and the name with `@@`, and is taken
apart at the first `@@`.  The builders check neither part.  So a pair is read back exactly when no `@@` begins within
its timeframe (`ScopedSeries.key_decodes_iff`), and a key belongs to one pair only exactly when its name holds no
other `@@`.
-/
namespace FastK

def indicatorCategory : Text := "indicator"
def featureCategory : Text := "feature"
def factorCategory : Text := "factor"
def signalCategory : Text := "signal"
def portfolioCategory : Text := "portfolio"
def riskCategory : Text := "risk"
def metricCategory : Text := "metric"

structure ScopedScalarBinding where
  symbol : Text
  timeframe : Text
  category : Text
  name : Text
  deriving DecidableEq, Repr

def encodeScopedScalarName (timeframe name : Text) : Text := timeframe ++ (scalarScopeSeparator ++ name)

def decodeScopedScalarName (name : Text) : Option (Text × Text) := Text.splitOnce scalarScopeSeparator name

def decodeScopedScalarKey (key : ScalarSeriesKey) : Option ScopedScalarBinding :=
  (decodeScopedScalarName key.name).map (fun p => ⟨key.symbol, p.1, key.category, p.2⟩)

def scopedScalarSeriesKey (symbol timeframe category name : Text) : ScalarSeriesKey :=
  ⟨symbol, category, encodeScopedScalarName timeframe name⟩

def ScopedScalarBinding.toSeriesKey (binding : ScopedScalarBinding) : ScalarSeriesKey :=
  scopedScalarSeriesKey binding.symbol binding.timeframe binding.category binding.name

def indicatorSeriesKey (symbol timeframe indicatorName : Text) : ScalarSeriesKey :=
  scopedScalarSeriesKey symbol timeframe indicatorCategory indicatorName

def featureSeriesKey (symbol timeframe featureName : Text) : ScalarSeriesKey :=
  scopedScalarSeriesKey symbol timeframe featureCategory featureName

def factorSeriesKey (symbol timeframe factorName : Text) : ScalarSeriesKey :=
  scopedScalarSeriesKey symbol timeframe factorCategory factorName

def signalSeriesKey (symbol timeframe signalName : Text) : ScalarSeriesKey :=
  scopedScalarSeriesKey symbol timeframe signalCategory signalName

def portfolioSeriesKey (timeframe seriesName : Text) : ScalarSeriesKey :=
  scopedScalarSeriesKey "__portfolio__" timeframe portfolioCategory seriesName

def riskSeriesKey (symbol timeframe riskName : Text) : ScalarSeriesKey :=
  scopedScalarSeriesKey symbol timeframe riskCategory riskName

def metricSeriesKey (symbol timeframe metricName : Text) : ScalarSeriesKey :=
  scopedScalarSeriesKey symbol timeframe metricCategory metricName

/-- The families of derived series: the builder of each fixes the category, and that of portfolios the symbol. -/
inductive ScopedSeries where
  | indicator (symbol : Text)
  | feature (symbol : Text)
  | factor (symbol : Text)
  | signal (symbol : Text)
  | portfolio
  | risk (symbol : Text)
  | metric (symbol : Text)

namespace ScopedSeries

/-- The builder of the family's keys. -/
def key : ScopedSeries → Text → Text → ScalarSeriesKey
  | indicator symbol => indicatorSeriesKey symbol
  | feature symbol => featureSeriesKey symbol
  | factor symbol => factorSeriesKey symbol
  | signal symbol => signalSeriesKey symbol
  | portfolio => portfolioSeriesKey
  | risk symbol => riskSeriesKey symbol
  | metric symbol => metricSeriesKey symbol

/-- `ScopedScalarBinding::indicator` and its siblings. -/
def binding (family : ScopedSeries) (timeframe name : Text) : ScopedScalarBinding :=
  match family with
  | indicator symbol => ⟨symbol, timeframe, indicatorCategory, name⟩
  | feature symbol => ⟨symbol, timeframe, featureCategory, name⟩
  | factor symbol => ⟨symbol, timeframe, factorCategory, name⟩
  | signal symbol => ⟨symbol, timeframe, signalCategory, name⟩
  | portfolio => ⟨"__portfolio__", timeframe, portfolioCategory, name⟩
  | risk symbol => ⟨symbol, timeframe, riskCategory, name⟩
  | metric symbol => ⟨symbol, timeframe, metricCategory, name⟩

variable {family : ScopedSeries} {timeframe name : Text}

theorem binding_toSeriesKey : (family.binding timeframe name).toSeriesKey = family.key timeframe name := by
  cases family <;> rfl

@[simp] theorem key_name : (family.key timeframe name).name = encodeScopedScalarName timeframe name := by
  cases family <;> rfl

theorem key_inj_iff {timeframe' name' : Text} : family.key timeframe' name' = family.key timeframe name ↔
    encodeScopedScalarName timeframe' name' = encodeScopedScalarName timeframe name := by
  constructor
  · intro h
    simpa using congrArg ScalarSeriesKey.name h
  · intro h
    cases family <;> exact congrArg (ScalarSeriesKey.mk _ _) h

end ScopedSeries

theorem scalarScopeSeparator_ne_nil : scalarScopeSeparator ≠ [] := by decide

/-- No separator begins within the timeframe of a joined name: there is none in it, and its last character does not take
the first one of the separator. -/
def ScopeFree (timeframe : Text) : Prop := ¬ scalarScopeSeparator <:+: timeframe ++ ['@']

instance {timeframe : Text} : Decidable (ScopeFree timeframe) := inferInstanceAs (Decidable (¬ _))

theorem decode_encode_iff {timeframe name : Text} :
    decodeScopedScalarName (encodeScopedScalarName timeframe name) = some (timeframe, name) ↔ ScopeFree timeframe :=
  Text.splitOnce_append_iff scalarScopeSeparator_ne_nil

theorem encode_inj {timeframe name timeframe' name' : Text} (h : ScopeFree timeframe) (h' : ScopeFree timeframe')
    (heq : encodeScopedScalarName timeframe' name' = encodeScopedScalarName timeframe name) :
    timeframe' = timeframe ∧ name' = name := by
  have hd := congrArg decodeScopedScalarName heq
  rw [decode_encode_iff.2 h, decode_encode_iff.2 h'] at hd
  exact Prod.mk.inj (Option.some.inj hd)

/-- A derived series is found again under the pair it was stored for. -/
theorem ScopedSeries.key_decodes_iff (family : ScopedSeries) (timeframe name : Text) :
    decodeScopedScalarKey (family.key timeframe name) = some (family.binding timeframe name) ↔ ScopeFree timeframe := by
  rw [← @decode_encode_iff timeframe name]
  unfold decodeScopedScalarKey
  rw [ScopedSeries.key_name]
  constructor
  · intro h
    obtain ⟨⟨t, n⟩, hp, hb⟩ := Option.map_eq_some_iff.1 h
    rw [hp]
    cases family <;> exact congrArg some (Prod.ext (congrArg ScopedScalarBinding.timeframe hb)
      (congrArg ScopedScalarBinding.name hb))
  · intro h
    rw [h]
    cases family <;> rfl

/-- What holds of a pair: it is read back from its name, and from its key as the binding it was built for, and no other
pair that is read back, or no other pair at all, has its key. -/
theorem ScopedSeries.key_faithful_iff (family : ScopedSeries) (timeframe name : Text) :
    (decodeScopedScalarName (encodeScopedScalarName timeframe name) = some (timeframe, name) ↔ ScopeFree timeframe) ∧
    (decodeScopedScalarKey (family.key timeframe name) = some (family.binding timeframe name) ↔ ScopeFree timeframe) ∧
    (ScopeFree timeframe → ∀ timeframe' name', ScopeFree timeframe' →
      family.key timeframe' name' = family.key timeframe name →
      timeframe' = timeframe ∧ name' = name) ∧
    ((∀ timeframe' name', family.key timeframe' name' = family.key timeframe name → timeframe' = timeframe ∧
      name' = name) ↔
      ScopeFree timeframe ∧ ¬ scalarScopeSeparator <:+: '@' :: name) := by
  refine ⟨decode_encode_iff, family.key_decodes_iff timeframe name, fun hfree timeframe' name' hfree' hk => ?_, ?_⟩
  · exact encode_inj hfree hfree' (key_inj_iff.1 hk)
  · simp only [key_inj_iff]
    exact Text.append_sep_unique_iff scalarScopeSeparator_ne_nil

theorem scopedNames_collide :
    decodeScopedScalarName (encodeScopedScalarName "1m@@5" "rsi") = some (("1m" : Text), ("5@@rsi" : Text)) ∧
    indicatorSeriesKey "BTCUSDT" "1m@@5" "rsi" = indicatorSeriesKey "BTCUSDT" "1m" "5@@rsi" ∧
    decodeScopedScalarName (encodeScopedScalarName "1m@" "rsi") = some (("1m" : Text), ("@rsi" : Text)) ∧
    indicatorSeriesKey "BTCUSDT" "1m@" "rsi" = indicatorSeriesKey "BTCUSDT" "1m" "@rsi" := by decide

end FastK
