import Gherkin.Dialect.Basic

/-! The dialects of the format with their locale codes, in the order of the codes. Each definition
lists the keywords for feature, background, scenario, outline, examples, and for the steps given,
when, then, and, but. -/

namespace Gherkin.Dialect

/-- A dialect from its spellings. -/
def ofWords (name native : String) (feature background scenario outline examples givens whens thens
    ands buts : List String) : Dialect :=
  ⟨name.toList, native.toList, feature.map String.toList, background.map String.toList,
    scenario.map String.toList, outline.map String.toList, examples.map String.toList,
    givens.map String.toList, whens.map String.toList, thens.map String.toList,
    ands.map String.toList, buts.map String.toList⟩

def afrikaans : Dialect :=
  ofWords "Afrikaans" "Afrikaans"
    ["Funksie", "Besigheid Behoefte", "Vermoë"]
    ["Agtergrond"]
    ["Voorbeeld", "Situasie"]
    ["Situasie Uiteensetting"]
    ["Voorbeelde"]
    ["* ", "Gegewe "]
    ["* ", "Wanneer "]
    ["* ", "Dan "]
    ["* ", "En "]
    ["* ", "Maar "]

def armenian : Dialect :=
  ofWords "Armenian" "հայերեն"
    ["Ֆունկցիոնալություն", "Հատկություն"]
    ["Կոնտեքստ"]
    ["Օրինակ", "Սցենար"]
    ["Սցենարի կառուցվացքը"]
    ["Օրինակներ"]
    ["* ", "Դիցուք "]
    ["* ", "Եթե ", "Երբ "]
    ["* ", "Ապա "]
    ["* ", "Եվ "]
    ["* ", "Բայց "]

def aragonese : Dialect :=
  ofWords "Aragonese" "Aragonés"
    ["Caracteristica"]
    ["Antecedents"]
    ["Eixemplo", "Caso"]
    ["Esquema del caso"]
    ["Eixemplos"]
    ["* ", "Dau ", "Dada ", "Daus ", "Dadas "]
    ["* ", "Cuan "]
    ["* ", "Alavez ", "Allora ", "Antonces "]
    ["* ", "Y ", "E "]
    ["* ", "Pero "]

def arabic : Dialect :=
  ofWords "Arabic" "العربية"
    ["خاصية"]
    ["الخلفية"]
    ["مثال", "سيناريو"]
    ["سيناريو مخطط"]
    ["امثلة"]
    ["* ", "بفرض "]
    ["* ", "متى ", "عندما "]
    ["* ", "اذاً ", "ثم "]
    ["* ", "و "]
    ["* ", "لكن "]

def asturian : Dialect :=
  ofWords "Asturian" "asturianu"
    ["Carauterística"]
    ["Antecedentes"]
    ["Exemplo", "Casu"]
    ["Esbozu del casu"]
    ["Exemplos"]
    ["* ", "Dáu ", "Dada ", "Daos ", "Daes "]
    ["* ", "Cuando "]
    ["* ", "Entós "]
    ["* ", "Y ", "Ya "]
    ["* ", "Peru "]

def azerbaijani : Dialect :=
  ofWords "Azerbaijani" "Azərbaycanca"
    ["Özəllik"]
    ["Keçmiş", "Kontekst"]
    ["Nümunə", "Ssenari"]
    ["Ssenarinin strukturu"]
    ["Nümunələr"]
    ["* ", "Tutaq ki ", "Verilir "]
    ["* ", "Əgər ", "Nə vaxt ki "]
    ["* ", "O halda "]
    ["* ", "Və ", "Həm "]
    ["* ", "Amma ", "Ancaq "]

def bulgarian : Dialect :=
  ofWords "Bulgarian" "български"
    ["Функционалност"]
    ["Предистория"]
    ["Пример", "Сценарий"]
    ["Рамка на сценарий"]
    ["Примери"]
    ["* ", "Дадено "]
    ["* ", "Когато "]
    ["* ", "То "]
    ["* ", "И "]
    ["* ", "Но "]

def malay : Dialect :=
  ofWords "Malay" "Bahasa Melayu"
    ["Fungsi"]
    ["Latar Belakang"]
    ["Senario", "Situasi", "Keadaan"]
    ["Kerangka Senario", "Kerangka Situasi", "Kerangka Keadaan", "Garis Panduan Senario"]
    ["Contoh"]
    ["* ", "Diberi ", "Bagi "]
    ["* ", "Apabila "]
    ["* ", "Maka ", "Kemudian "]
    ["* ", "Dan "]
    ["* ", "Tetapi ", "Tapi "]

def bosnian : Dialect :=
  ofWords "Bosnian" "Bosanski"
    ["Karakteristika"]
    ["Pozadina"]
    ["Primjer", "Scenariju", "Scenario"]
    ["Scenariju-obris", "Scenario-outline"]
    ["Primjeri"]
    ["* ", "Dato "]
    ["* ", "Kada "]
    ["* ", "Zatim "]
    ["* ", "I ", "A "]
    ["* ", "Ali "]

def catalan : Dialect :=
  ofWords "Catalan" "català"
    ["Característica", "Funcionalitat"]
    ["Rerefons", "Antecedents"]
    ["Exemple", "Escenari"]
    ["Esquema de l'escenari"]
    ["Exemples"]
    ["* ", "Donat ", "Donada ", "Atès ", "Atesa "]
    ["* ", "Quan "]
    ["* ", "Aleshores ", "Cal "]
    ["* ", "I "]
    ["* ", "Però "]

def czech : Dialect :=
  ofWords "Czech" "Česky"
    ["Požadavek"]
    ["Pozadí", "Kontext"]
    ["Příklad", "Scénář"]
    ["Náčrt Scénáře", "Osnova scénáře"]
    ["Příklady"]
    ["* ", "Pokud ", "Za předpokladu "]
    ["* ", "Když "]
    ["* ", "Pak "]
    ["* ", "A také ", "A "]
    ["* ", "Ale "]

def welsh : Dialect :=
  ofWords "Welsh" "Cymraeg"
    ["Arwedd"]
    ["Cefndir"]
    ["Enghraifft", "Scenario"]
    ["Scenario Amlinellol"]
    ["Enghreifftiau"]
    ["* ", "Anrhegedig a "]
    ["* ", "Pryd "]
    ["* ", "Yna "]
    ["* ", "A "]
    ["* ", "Ond "]

def danish : Dialect :=
  ofWords "Danish" "dansk"
    ["Egenskab"]
    ["Baggrund"]
    ["Eksempel", "Scenarie"]
    ["Abstrakt Scenario"]
    ["Eksempler"]
    ["* ", "Givet "]
    ["* ", "Når "]
    ["* ", "Så "]
    ["* ", "Og "]
    ["* ", "Men "]

def german : Dialect :=
  ofWords "German" "Deutsch"
    ["Funktionalität", "Funktion"]
    ["Grundlage", "Hintergrund", "Voraussetzungen", "Vorbedingungen"]
    ["Beispiel", "Szenario"]
    ["Szenariogrundriss", "Szenarien"]
    ["Beispiele"]
    ["* ", "Angenommen ", "Gegeben sei ", "Gegeben seien "]
    ["* ", "Wenn "]
    ["* ", "Dann "]
    ["* ", "Und "]
    ["* ", "Aber "]

def greek : Dialect :=
  ofWords "Greek" "Ελληνικά"
    ["Δυνατότητα", "Λειτουργία"]
    ["Υπόβαθρο"]
    ["Παράδειγμα", "Σενάριο"]
    ["Περιγραφή Σεναρίου", "Περίγραμμα Σεναρίου"]
    ["Παραδείγματα", "Σενάρια"]
    ["* ", "Δεδομένου "]
    ["* ", "Όταν "]
    ["* ", "Τότε "]
    ["* ", "Και "]
    ["* ", "Αλλά "]

def emoji : Dialect :=
  ofWords "Emoji" "😀"
    ["📚"]
    ["💤"]
    ["🥒", "📕"]
    ["📖"]
    ["📓"]
    ["* ", "😐"]
    ["* ", "🎬"]
    ["* ", "🙏"]
    ["* ", "😂"]
    ["* ", "😔"]

def english : Dialect :=
  ofWords "English" "English"
    ["Feature", "Business Need", "Ability"]
    ["Background"]
    ["Example", "Scenario"]
    ["Scenario Outline", "Scenario Template"]
    ["Examples", "Scenarios"]
    ["* ", "Given "]
    ["* ", "When "]
    ["* ", "Then "]
    ["* ", "And "]
    ["* ", "But "]

def scouse : Dialect :=
  ofWords "Scouse" "Scouse"
    ["Feature"]
    ["Dis is what went down"]
    ["The thing of it is"]
    ["Wharrimean is"]
    ["Examples"]
    ["* ", "Givun ", "Youse know when youse got "]
    ["* ", "Wun ", "Youse know like when "]
    ["* ", "Dun ", "Den youse gotta "]
    ["* ", "An "]
    ["* ", "Buh "]

def australian : Dialect :=
  ofWords "Australian" "Australian"
    ["Pretty much"]
    ["First off"]
    ["Awww, look mate"]
    ["Reckon it's like"]
    ["You'll wanna"]
    ["* ", "Y'know "]
    ["* ", "It's just unbelievable "]
    ["* ", "But at the end of the day I reckon "]
    ["* ", "Too right "]
    ["* ", "Yeah nah "]

def lolcat : Dialect :=
  ofWords "LOLCAT" "LOLCAT"
    ["OH HAI"]
    ["B4"]
    ["MISHUN"]
    ["MISHUN SRSLY"]
    ["EXAMPLZ"]
    ["* ", "I CAN HAZ "]
    ["* ", "WEN "]
    ["* ", "DEN "]
    ["* ", "AN "]
    ["* ", "BUT "]

def oldEnglish : Dialect :=
  ofWords "Old English" "Englisc"
    ["Hwaet", "Hwæt"]
    ["Aer", "Ær"]
    ["Swa"]
    ["Swa hwaer swa", "Swa hwær swa"]
    ["Se the", "Se þe", "Se ðe"]
    ["* ", "Thurh ", "Þurh ", "Ðurh "]
    ["* ", "Tha ", "Þa ", "Ða "]
    ["* ", "Tha ", "Þa ", "Ða ", "Tha the ", "Þa þe ", "Ða ðe "]
    ["* ", "Ond ", "7 "]
    ["* ", "Ac "]

def pirate : Dialect :=
  ofWords "Pirate" "Pirate"
    ["Ahoy matey!"]
    ["Yo-ho-ho"]
    ["Heave to"]
    ["Shiver me timbers"]
    ["Dead men tell no tales"]
    ["* ", "Gangway! "]
    ["* ", "Blimey! "]
    ["* ", "Let go and haul "]
    ["* ", "Aye "]
    ["* ", "Avast! "]

def texas : Dialect :=
  ofWords "Texas" "Texas"
    ["This ain’t my first rodeo", "All gussied up"]
    ["Lemme tell y'all a story"]
    ["All hat and no cattle"]
    ["Serious as a snake bite", "Busy as a hound in flea season"]
    ["Now that's a story longer than a cattle drive in July"]
    ["Fixin' to ", "All git out "]
    ["Quick out of the chute "]
    ["There’s no tree but bears some fruit "]
    ["Come hell or high water "]
    ["Well now hold on, I'll you what "]

def esperanto : Dialect :=
  ofWords "Esperanto" "Esperanto"
    ["Trajto"]
    ["Fono"]
    ["Ekzemplo", "Scenaro", "Kazo"]
    ["Konturo de la scenaro", "Skizo", "Kazo-skizo"]
    ["Ekzemploj"]
    ["* ", "Donitaĵo ", "Komence "]
    ["* ", "Se "]
    ["* ", "Do "]
    ["* ", "Kaj "]
    ["* ", "Sed "]

def spanish : Dialect :=
  ofWords "Spanish" "español"
    ["Característica", "Necesidad del negocio", "Requisito"]
    ["Antecedentes"]
    ["Ejemplo", "Escenario"]
    ["Esquema del escenario"]
    ["Ejemplos"]
    ["* ", "Dado ", "Dada ", "Dados ", "Dadas "]
    ["* ", "Cuando "]
    ["* ", "Entonces "]
    ["* ", "Y ", "E "]
    ["* ", "Pero "]

def estonian : Dialect :=
  ofWords "Estonian" "eesti keel"
    ["Omadus"]
    ["Taust"]
    ["Juhtum", "Stsenaarium"]
    ["Raamjuhtum", "Raamstsenaarium"]
    ["Juhtumid"]
    ["* ", "Eeldades "]
    ["* ", "Kui "]
    ["* ", "Siis "]
    ["* ", "Ja "]
    ["* ", "Kuid "]

def persian : Dialect :=
  ofWords "Persian" "فارسی"
    ["وِیژگی"]
    ["زمینه"]
    ["مثال", "سناریو"]
    ["الگوی سناریو"]
    ["نمونه ها"]
    ["* ", "با فرض "]
    ["* ", "هنگامی "]
    ["* ", "آنگاه "]
    ["* ", "و "]
    ["* ", "اما "]

def finnish : Dialect :=
  ofWords "Finnish" "suomi"
    ["Ominaisuus"]
    ["Tausta"]
    ["Tapaus"]
    ["Tapausaihio"]
    ["Tapaukset"]
    ["* ", "Oletetaan "]
    ["* ", "Kun "]
    ["* ", "Niin "]
    ["* ", "Ja "]
    ["* ", "Mutta "]

def french : Dialect :=
  ofWords "French" "français"
    ["Fonctionnalité"]
    ["Contexte"]
    ["Exemple", "Scénario"]
    ["Plan du scénario", "Plan du Scénario"]
    ["Exemples"]
    ["* ", "Soit ", "Sachant que ", "Sachant qu'", "Sachant ", "Etant donné que ",
      "Etant donné qu'", "Etant donné ", "Etant donnée ", "Etant donnés ", "Etant données ",
      "Étant donné que ", "Étant donné qu'", "Étant donné ", "Étant donnée ", "Étant donnés ",
      "Étant données "]
    ["* ", "Quand ", "Lorsque ", "Lorsqu'"]
    ["* ", "Alors ", "Donc "]
    ["* ", "Et que ", "Et qu'", "Et "]
    ["* ", "Mais que ", "Mais qu'", "Mais "]

def irish : Dialect :=
  ofWords "Irish" "Gaeilge"
    ["Gné"]
    ["Cúlra"]
    ["Sampla", "Cás"]
    ["Cás Achomair"]
    ["Samplaí"]
    ["* ", "Cuir i gcás go", "Cuir i gcás nach", "Cuir i gcás gur", "Cuir i gcás nár"]
    ["* ", "Nuair a", "Nuair nach", "Nuair ba", "Nuair nár"]
    ["* ", "Ansin"]
    ["* ", "Agus"]
    ["* ", "Ach"]

def gujarati : Dialect :=
  ofWords "Gujarati" "ગુજરાતી"
    ["લક્ષણ", "વ્યાપાર જરૂર", "ક્ષમતા"]
    ["બેકગ્રાઉન્ડ"]
    ["ઉદાહરણ", "સ્થિતિ"]
    ["પરિદ્દશ્ય રૂપરેખા", "પરિદ્દશ્ય ઢાંચો"]
    ["ઉદાહરણો"]
    ["* ", "આપેલ છે "]
    ["* ", "ક્યારે "]
    ["* ", "પછી "]
    ["* ", "અને "]
    ["* ", "પણ "]

def galician : Dialect :=
  ofWords "Galician" "galego"
    ["Característica"]
    ["Contexto"]
    ["Exemplo", "Escenario"]
    ["Esbozo do escenario"]
    ["Exemplos"]
    ["* ", "Dado ", "Dada ", "Dados ", "Dadas "]
    ["* ", "Cando "]
    ["* ", "Entón ", "Logo "]
    ["* ", "E "]
    ["* ", "Mais ", "Pero "]

def hebrew : Dialect :=
  ofWords "Hebrew" "עברית"
    ["תכונה"]
    ["רקע"]
    ["דוגמא", "תרחיש"]
    ["תבנית תרחיש"]
    ["דוגמאות"]
    ["* ", "בהינתן "]
    ["* ", "כאשר "]
    ["* ", "אז ", "אזי "]
    ["* ", "וגם "]
    ["* ", "אבל "]

def hindi : Dialect :=
  ofWords "Hindi" "हिंदी"
    ["रूप लेख"]
    ["पृष्ठभूमि"]
    ["परिदृश्य"]
    ["परिदृश्य रूपरेखा"]
    ["उदाहरण"]
    ["* ", "अगर ", "यदि ", "चूंकि "]
    ["* ", "जब ", "कदा "]
    ["* ", "तब ", "तदा "]
    ["* ", "और ", "तथा "]
    ["* ", "पर ", "परन्तु ", "किन्तु "]

def croatian : Dialect :=
  ofWords "Croatian" "hrvatski"
    ["Osobina", "Mogućnost", "Mogucnost"]
    ["Pozadina"]
    ["Primjer", "Scenarij"]
    ["Skica", "Koncept"]
    ["Primjeri", "Scenariji"]
    ["* ", "Zadan ", "Zadani ", "Zadano ", "Ukoliko "]
    ["* ", "Kada ", "Kad "]
    ["* ", "Onda "]
    ["* ", "I "]
    ["* ", "Ali "]

def creole : Dialect :=
  ofWords "Creole" "kreyòl"
    ["Karakteristik", "Mak", "Fonksyonalite"]
    ["Kontèks", "Istorik"]
    ["Senaryo"]
    ["Plan senaryo", "Plan Senaryo", "Senaryo deskripsyon", "Senaryo Deskripsyon",
      "Dyagram senaryo", "Dyagram Senaryo"]
    ["Egzanp"]
    ["* ", "Sipoze ", "Sipoze ke ", "Sipoze Ke "]
    ["* ", "Lè ", "Le "]
    ["* ", "Lè sa a ", "Le sa a "]
    ["* ", "Ak ", "Epi ", "E "]
    ["* ", "Men "]

def hungarian : Dialect :=
  ofWords "Hungarian" "magyar"
    ["Jellemző"]
    ["Háttér"]
    ["Példa", "Forgatókönyv"]
    ["Forgatókönyv vázlat"]
    ["Példák"]
    ["* ", "Amennyiben ", "Adott "]
    ["* ", "Majd ", "Ha ", "Amikor "]
    ["* ", "Akkor "]
    ["* ", "És "]
    ["* ", "De "]

def indonesian : Dialect :=
  ofWords "Indonesian" "Bahasa Indonesia"
    ["Fitur"]
    ["Dasar", "Latar Belakang"]
    ["Skenario"]
    ["Skenario konsep", "Garis-Besar Skenario"]
    ["Contoh", "Misal"]
    ["* ", "Dengan ", "Diketahui ", "Diasumsikan ", "Bila ", "Jika "]
    ["* ", "Ketika "]
    ["* ", "Maka ", "Kemudian "]
    ["* ", "Dan "]
    ["* ", "Tapi ", "Tetapi "]

def icelandic : Dialect :=
  ofWords "Icelandic" "Íslenska"
    ["Eiginleiki"]
    ["Bakgrunnur"]
    ["Atburðarás"]
    ["Lýsing Atburðarásar", "Lýsing Dæma"]
    ["Dæmi", "Atburðarásir"]
    ["* ", "Ef "]
    ["* ", "Þegar "]
    ["* ", "Þá "]
    ["* ", "Og "]
    ["* ", "En "]

def italian : Dialect :=
  ofWords "Italian" "italiano"
    ["Funzionalità", "Esigenza di Business", "Abilità"]
    ["Contesto"]
    ["Esempio", "Scenario"]
    ["Schema dello scenario"]
    ["Esempi"]
    ["* ", "Dato ", "Data ", "Dati ", "Date "]
    ["* ", "Quando "]
    ["* ", "Allora "]
    ["* ", "E "]
    ["* ", "Ma "]

def japanese : Dialect :=
  ofWords "Japanese" "日本語"
    ["フィーチャ", "機能"]
    ["背景"]
    ["シナリオ"]
    ["シナリオアウトライン", "シナリオテンプレート", "テンプレ", "シナリオテンプレ"]
    ["例", "サンプル"]
    ["* ", "前提"]
    ["* ", "もし"]
    ["* ", "ならば"]
    ["* ", "かつ"]
    ["* ", "しかし", "但し", "ただし"]

def javanese : Dialect :=
  ofWords "Javanese" "Basa Jawa"
    ["Fitur"]
    ["Dasar"]
    ["Skenario"]
    ["Konsep skenario"]
    ["Conto", "Contone"]
    ["* ", "Nalika ", "Nalikaning "]
    ["* ", "Manawa ", "Menawa "]
    ["* ", "Njuk ", "Banjur "]
    ["* ", "Lan "]
    ["* ", "Tapi ", "Nanging ", "Ananging "]

def georgian : Dialect :=
  ofWords "Georgian" "ქართველი"
    ["თვისება"]
    ["კონტექსტი"]
    ["მაგალითად", "სცენარის"]
    ["სცენარის ნიმუში"]
    ["მაგალითები"]
    ["* ", "მოცემული"]
    ["* ", "როდესაც"]
    ["* ", "მაშინ"]
    ["* ", "და"]
    ["* ", "მაგ­რამ"]

def kannada : Dialect :=
  ofWords "Kannada" "ಕನ್ನಡ"
    ["ಹೆಚ್ಚಳ"]
    ["ಹಿನ್ನೆಲೆ"]
    ["ಉದಾಹರಣೆ", "ಕಥಾಸಾರಾಂಶ"]
    ["ವಿವರಣೆ"]
    ["ಉದಾಹರಣೆಗಳು"]
    ["* ", "ನೀಡಿದ "]
    ["* ", "ಸ್ಥಿತಿಯನ್ನು "]
    ["* ", "ನಂತರ "]
    ["* ", "ಮತ್ತು "]
    ["* ", "ಆದರೆ "]

def korean : Dialect :=
  ofWords "Korean" "한국어"
    ["기능"]
    ["배경"]
    ["시나리오"]
    ["시나리오 개요"]
    ["예"]
    ["* ", "조건", "먼저"]
    ["* ", "만일", "만약"]
    ["* ", "그러면"]
    ["* ", "그리고"]
    ["* ", "하지만", "단"]

def lithuanian : Dialect :=
  ofWords "Lithuanian" "lietuvių kalba"
    ["Savybė"]
    ["Kontekstas"]
    ["Pavyzdys", "Scenarijus"]
    ["Scenarijaus šablonas"]
    ["Pavyzdžiai", "Scenarijai", "Variantai"]
    ["* ", "Duota "]
    ["* ", "Kai "]
    ["* ", "Tada "]
    ["* ", "Ir "]
    ["* ", "Bet "]

def luxemburgish : Dialect :=
  ofWords "Luxemburgish" "Lëtzebuergesch"
    ["Funktionalitéit"]
    ["Hannergrond"]
    ["Beispill", "Szenario"]
    ["Plang vum Szenario"]
    ["Beispiller"]
    ["* ", "ugeholl "]
    ["* ", "wann "]
    ["* ", "dann "]
    ["* ", "an ", "a "]
    ["* ", "awer ", "mä "]

def latvian : Dialect :=
  ofWords "Latvian" "latviešu"
    ["Funkcionalitāte", "Fīča"]
    ["Konteksts", "Situācija"]
    ["Piemērs", "Scenārijs"]
    ["Scenārijs pēc parauga"]
    ["Piemēri", "Paraugs"]
    ["* ", "Kad "]
    ["* ", "Ja "]
    ["* ", "Tad "]
    ["* ", "Un "]
    ["* ", "Bet "]

def macedonian : Dialect :=
  ofWords "Macedonian" "Македонски"
    ["Функционалност", "Бизнис потреба", "Можност"]
    ["Контекст", "Содржина"]
    ["Пример", "Сценарио", "На пример"]
    ["Преглед на сценарија", "Скица", "Концепт"]
    ["Примери", "Сценарија"]
    ["* ", "Дадено ", "Дадена "]
    ["* ", "Кога "]
    ["* ", "Тогаш "]
    ["* ", "И "]
    ["* ", "Но "]

def macedonianLatin : Dialect :=
  ofWords "Macedonian (Latin)" "Makedonski (Latinica)"
    ["Funkcionalnost", "Biznis potreba", "Mozhnost"]
    ["Kontekst", "Sodrzhina"]
    ["Scenario", "Na primer"]
    ["Pregled na scenarija", "Skica", "Koncept"]
    ["Primeri", "Scenaria"]
    ["* ", "Dadeno ", "Dadena "]
    ["* ", "Koga "]
    ["* ", "Togash "]
    ["* ", "I "]
    ["* ", "No "]

def mongolian : Dialect :=
  ofWords "Mongolian" "монгол"
    ["Функц", "Функционал"]
    ["Агуулга"]
    ["Сценар"]
    ["Сценарын төлөвлөгөө"]
    ["Тухайлбал"]
    ["* ", "Өгөгдсөн нь ", "Анх "]
    ["* ", "Хэрэв "]
    ["* ", "Тэгэхэд ", "Үүний дараа "]
    ["* ", "Мөн ", "Тэгээд "]
    ["* ", "Гэхдээ ", "Харин "]

def marathi : Dialect :=
  ofWords "Marathi" "मराठी"
    ["वैशिष्ट्य", "सुविधा"]
    ["पार्श्वभूमी"]
    ["परिदृश्य"]
    ["परिदृश्य रूपरेखा"]
    ["उदाहरण"]
    ["* ", "जर", "दिलेल्या प्रमाणे "]
    ["* ", "जेव्हा "]
    ["* ", "मग ", "तेव्हा "]
    ["* ", "आणि ", "तसेच "]
    ["* ", "पण ", "परंतु "]

def nepali : Dialect :=
  ofWords "Nepali" "नेपाली"
    ["सुविधा", "विशेषता"]
    ["पृष्ठभूमी"]
    ["परिदृश्य"]
    ["परिदृश्य रूपरेखा"]
    ["उदाहरण", "उदाहरणहरु"]
    ["* ", "दिइएको ", "दिएको ", "यदि "]
    ["* ", "जब "]
    ["* ", "त्यसपछि ", "अनी "]
    ["* ", "र ", "अनी "]
    ["* ", "तर "]

def dutch : Dialect :=
  ofWords "Dutch" "Nederlands"
    ["Functionaliteit"]
    ["Achtergrond"]
    ["Voorbeeld", "Scenario"]
    ["Abstract Scenario"]
    ["Voorbeelden"]
    ["* ", "Gegeven ", "Stel "]
    ["* ", "Als ", "Wanneer "]
    ["* ", "Dan "]
    ["* ", "En "]
    ["* ", "Maar "]

def norwegian : Dialect :=
  ofWords "Norwegian" "norsk"
    ["Egenskap"]
    ["Bakgrunn"]
    ["Eksempel", "Scenario"]
    ["Scenariomal", "Abstrakt Scenario"]
    ["Eksempler"]
    ["* ", "Gitt "]
    ["* ", "Når "]
    ["* ", "Så "]
    ["* ", "Og "]
    ["* ", "Men "]

def panjabi : Dialect :=
  ofWords "Panjabi" "ਪੰਜਾਬੀ"
    ["ਖਾਸੀਅਤ", "ਮੁਹਾਂਦਰਾ", "ਨਕਸ਼ ਨੁਹਾਰ"]
    ["ਪਿਛੋਕੜ"]
    ["ਉਦਾਹਰਨ", "ਪਟਕਥਾ"]
    ["ਪਟਕਥਾ ਢਾਂਚਾ", "ਪਟਕਥਾ ਰੂਪ ਰੇਖਾ"]
    ["ਉਦਾਹਰਨਾਂ"]
    ["* ", "ਜੇਕਰ ", "ਜਿਵੇਂ ਕਿ "]
    ["* ", "ਜਦੋਂ "]
    ["* ", "ਤਦ "]
    ["* ", "ਅਤੇ "]
    ["* ", "ਪਰ "]

def polish : Dialect :=
  ofWords "Polish" "polski"
    ["Właściwość", "Funkcja", "Aspekt", "Potrzeba biznesowa"]
    ["Założenia"]
    ["Przykład", "Scenariusz"]
    ["Szablon scenariusza"]
    ["Przykłady"]
    ["* ", "Zakładając ", "Mając ", "Zakładając, że "]
    ["* ", "Jeżeli ", "Jeśli ", "Gdy ", "Kiedy "]
    ["* ", "Wtedy "]
    ["* ", "Oraz ", "I "]
    ["* ", "Ale "]

def portuguese : Dialect :=
  ofWords "Portuguese" "português"
    ["Funcionalidade", "Característica", "Caracteristica"]
    ["Contexto", "Cenário de Fundo", "Cenario de Fundo", "Fundo"]
    ["Exemplo", "Cenário", "Cenario"]
    ["Esquema do Cenário", "Esquema do Cenario", "Delineação do Cenário", "Delineacao do Cenario"]
    ["Exemplos", "Cenários", "Cenarios"]
    ["* ", "Dado ", "Dada ", "Dados ", "Dadas "]
    ["* ", "Quando "]
    ["* ", "Então ", "Entao "]
    ["* ", "E "]
    ["* ", "Mas "]

def romanian : Dialect :=
  ofWords "Romanian" "română"
    ["Functionalitate", "Funcționalitate", "Funcţionalitate"]
    ["Context"]
    ["Exemplu", "Scenariu"]
    ["Structura scenariu", "Structură scenariu"]
    ["Exemple"]
    ["* ", "Date fiind ", "Dat fiind ", "Dată fiind", "Dati fiind ", "Dați fiind ", "Daţi fiind "]
    ["* ", "Cand ", "Când "]
    ["* ", "Atunci "]
    ["* ", "Si ", "Și ", "Şi "]
    ["* ", "Dar "]

def russian : Dialect :=
  ofWords "Russian" "русский"
    ["Функция", "Функциональность", "Функционал", "Свойство"]
    ["Предыстория", "Контекст"]
    ["Пример", "Сценарий"]
    ["Структура сценария", "Шаблон сценария"]
    ["Примеры"]
    ["* ", "Допустим ", "Дано ", "Пусть "]
    ["* ", "Когда ", "Если "]
    ["* ", "То ", "Затем ", "Тогда "]
    ["* ", "И ", "К тому же ", "Также "]
    ["* ", "Но ", "А ", "Иначе "]

def slovak : Dialect :=
  ofWords "Slovak" "Slovensky"
    ["Požiadavka", "Funkcia", "Vlastnosť"]
    ["Pozadie"]
    ["Príklad", "Scenár"]
    ["Náčrt Scenáru", "Náčrt Scenára", "Osnova Scenára"]
    ["Príklady"]
    ["* ", "Pokiaľ ", "Za predpokladu "]
    ["* ", "Keď ", "Ak "]
    ["* ", "Tak ", "Potom "]
    ["* ", "A ", "A tiež ", "A taktiež ", "A zároveň "]
    ["* ", "Ale "]

def slovenian : Dialect :=
  ofWords "Slovenian" "Slovenski"
    ["Funkcionalnost", "Funkcija", "Možnosti", "Moznosti", "Lastnost", "Značilnost"]
    ["Kontekst", "Osnova", "Ozadje"]
    ["Primer", "Scenarij"]
    ["Struktura scenarija", "Skica", "Koncept", "Oris scenarija", "Osnutek"]
    ["Primeri", "Scenariji"]
    ["Dano ", "Podano ", "Zaradi ", "Privzeto "]
    ["Ko ", "Ce ", "Če ", "Kadar "]
    ["Nato ", "Potem ", "Takrat "]
    ["In ", "Ter "]
    ["Toda ", "Ampak ", "Vendar "]

def serbian : Dialect :=
  ofWords "Serbian" "Српски"
    ["Функционалност", "Могућност", "Особина"]
    ["Контекст", "Основа", "Позадина"]
    ["Пример", "Сценарио", "Пример"]
    ["Структура сценарија", "Скица", "Концепт"]
    ["Примери", "Сценарији"]
    ["* ", "За дато ", "За дате ", "За дати "]
    ["* ", "Када ", "Кад "]
    ["* ", "Онда "]
    ["* ", "И "]
    ["* ", "Али "]

def serbianLatin : Dialect :=
  ofWords "Serbian (Latin)" "Srpski (Latinica)"
    ["Funkcionalnost", "Mogućnost", "Mogucnost", "Osobina"]
    ["Kontekst", "Osnova", "Pozadina"]
    ["Scenario", "Primer"]
    ["Struktura scenarija", "Skica", "Koncept"]
    ["Primeri", "Scenariji"]
    ["* ", "Za dato ", "Za date ", "Za dati "]
    ["* ", "Kada ", "Kad "]
    ["* ", "Onda "]
    ["* ", "I "]
    ["* ", "Ali "]

def swedish : Dialect :=
  ofWords "Swedish" "Svenska"
    ["Egenskap"]
    ["Bakgrund"]
    ["Scenario"]
    ["Abstrakt Scenario", "Scenariomall"]
    ["Exempel"]
    ["* ", "Givet "]
    ["* ", "När "]
    ["* ", "Så "]
    ["* ", "Och "]
    ["* ", "Men "]

def tamil : Dialect :=
  ofWords "Tamil" "தமிழ்"
    ["அம்சம்", "வணிக தேவை", "திறன்"]
    ["பின்னணி"]
    ["உதாரணமாக", "காட்சி"]
    ["காட்சி சுருக்கம்", "காட்சி வார்ப்புரு"]
    ["எடுத்துக்காட்டுகள்", "காட்சிகள்", "நிலைமைகளில்"]
    ["* ", "கொடுக்கப்பட்ட "]
    ["* ", "எப்போது "]
    ["* ", "அப்பொழுது "]
    ["* ", "மேலும்  ", "மற்றும் "]
    ["* ", "ஆனால்  "]

def telugu : Dialect :=
  ofWords "Telugu" "తెలుగు"
    ["గుణము"]
    ["నేపథ్యం"]
    ["ఉదాహరణ", "సన్నివేశం"]
    ["కథనం"]
    ["ఉదాహరణలు"]
    ["* ", "చెప్పబడినది "]
    ["* ", "ఈ పరిస్థితిలో "]
    ["* ", "అప్పుడు "]
    ["* ", "మరియు "]
    ["* ", "కాని "]

def thai : Dialect :=
  ofWords "Thai" "ไทย"
    ["โครงหลัก", "ความต้องการทางธุรกิจ", "ความสามารถ"]
    ["แนวคิด"]
    ["เหตุการณ์"]
    ["สรุปเหตุการณ์", "โครงสร้างของเหตุการณ์"]
    ["ชุดของตัวอย่าง", "ชุดของเหตุการณ์"]
    ["* ", "กำหนดให้ "]
    ["* ", "เมื่อ "]
    ["* ", "ดังนั้น "]
    ["* ", "และ "]
    ["* ", "แต่ "]

def klingon : Dialect :=
  ofWords "Klingon" "tlhIngan"
    ["Qap", "Qu'meH 'ut", "perbogh", "poQbogh malja'", "laH"]
    ["mo'"]
    ["lut"]
    ["lut chovnatlh"]
    ["ghantoH", "lutmey"]
    ["* ", "ghu' noblu' ", "DaH ghu' bejlu' "]
    ["* ", "qaSDI' "]
    ["* ", "vaj "]
    ["* ", "'ej ", "latlh "]
    ["* ", "'ach ", "'a "]

def turkish : Dialect :=
  ofWords "Turkish" "Türkçe"
    ["Özellik"]
    ["Geçmiş"]
    ["Örnek", "Senaryo"]
    ["Senaryo taslağı"]
    ["Örnekler"]
    ["* ", "Diyelim ki "]
    ["* ", "Eğer ki "]
    ["* ", "O zaman "]
    ["* ", "Ve "]
    ["* ", "Fakat ", "Ama "]

def tatar : Dialect :=
  ofWords "Tatar" "Татарча"
    ["Мөмкинлек", "Үзенчәлеклелек"]
    ["Кереш"]
    ["Сценарий"]
    ["Сценарийның төзелеше"]
    ["Үрнәкләр", "Мисаллар"]
    ["* ", "Әйтик "]
    ["* ", "Әгәр "]
    ["* ", "Нәтиҗәдә "]
    ["* ", "Һәм ", "Вә "]
    ["* ", "Ләкин ", "Әмма "]

def ukrainian : Dialect :=
  ofWords "Ukrainian" "Українська"
    ["Функціонал"]
    ["Передумова"]
    ["Приклад", "Сценарій"]
    ["Структура сценарію"]
    ["Приклади"]
    ["* ", "Припустимо ", "Припустимо, що ", "Нехай ", "Дано "]
    ["* ", "Якщо ", "Коли "]
    ["* ", "То ", "Тоді "]
    ["* ", "І ", "А також ", "Та "]
    ["* ", "Але "]

def urdu : Dialect :=
  ofWords "Urdu" "اردو"
    ["صلاحیت", "کاروبار کی ضرورت", "خصوصیت"]
    ["پس منظر"]
    ["منظرنامہ"]
    ["منظر نامے کا خاکہ"]
    ["مثالیں"]
    ["* ", "اگر ", "بالفرض ", "فرض کیا "]
    ["* ", "جب "]
    ["* ", "پھر ", "تب "]
    ["* ", "اور "]
    ["* ", "لیکن "]

def uzbek : Dialect :=
  ofWords "Uzbek" "Узбекча"
    ["Функционал"]
    ["Тарих"]
    ["Сценарий"]
    ["Сценарий структураси"]
    ["Мисоллар"]
    ["* ", "Агар "]
    ["* ", "Агар "]
    ["* ", "Унда "]
    ["* ", "Ва "]
    ["* ", "Лекин ", "Бирок ", "Аммо "]

def vietnamese : Dialect :=
  ofWords "Vietnamese" "Tiếng Việt"
    ["Tính năng"]
    ["Bối cảnh"]
    ["Tình huống", "Kịch bản"]
    ["Khung tình huống", "Khung kịch bản"]
    ["Dữ liệu"]
    ["* ", "Biết ", "Cho "]
    ["* ", "Khi "]
    ["* ", "Thì "]
    ["* ", "Và "]
    ["* ", "Nhưng "]

def chineseSimplified : Dialect :=
  ofWords "Chinese simplified" "简体中文"
    ["功能"]
    ["背景"]
    ["场景", "剧本"]
    ["场景大纲", "剧本大纲"]
    ["例子"]
    ["* ", "假如", "假设", "假定"]
    ["* ", "当"]
    ["* ", "那么"]
    ["* ", "而且", "并且", "同时"]
    ["* ", "但是"]

def chineseTraditional : Dialect :=
  ofWords "Chinese traditional" "繁體中文"
    ["功能"]
    ["背景"]
    ["場景", "劇本"]
    ["場景大綱", "劇本大綱"]
    ["例子"]
    ["* ", "假如", "假設", "假定"]
    ["* ", "當"]
    ["* ", "那麼"]
    ["* ", "而且", "並且", "同時"]
    ["* ", "但是"]

/-- Every dialect under its locale code. -/
def table : List (Text × Dialect) :=
  [("af".toList, afrikaans), ("am".toList, armenian), ("an".toList, aragonese),
    ("ar".toList, arabic), ("ast".toList, asturian), ("az".toList, azerbaijani),
    ("bg".toList, bulgarian), ("bm".toList, malay), ("bs".toList, bosnian),
    ("ca".toList, catalan), ("cs".toList, czech), ("cy-GB".toList, welsh), ("da".toList, danish),
    ("de".toList, german), ("el".toList, greek), ("em".toList, emoji), ("en".toList, english),
    ("en-Scouse".toList, scouse), ("en-au".toList, australian), ("en-lol".toList, lolcat),
    ("en-old".toList, oldEnglish), ("en-pirate".toList, pirate), ("en-tx".toList, texas),
    ("eo".toList, esperanto), ("es".toList, spanish), ("et".toList, estonian),
    ("fa".toList, persian), ("fi".toList, finnish), ("fr".toList, french), ("ga".toList, irish),
    ("gj".toList, gujarati), ("gl".toList, galician), ("he".toList, hebrew), ("hi".toList, hindi),
    ("hr".toList, croatian), ("ht".toList, creole), ("hu".toList, hungarian),
    ("id".toList, indonesian), ("is".toList, icelandic), ("it".toList, italian),
    ("ja".toList, japanese), ("jv".toList, javanese), ("ka".toList, georgian),
    ("kn".toList, kannada), ("ko".toList, korean), ("lt".toList, lithuanian),
    ("lu".toList, luxemburgish), ("lv".toList, latvian), ("mk-Cyrl".toList, macedonian),
    ("mk-Latn".toList, macedonianLatin), ("mn".toList, mongolian), ("mr".toList, marathi),
    ("ne".toList, nepali), ("nl".toList, dutch), ("no".toList, norwegian), ("pa".toList, panjabi),
    ("pl".toList, polish), ("pt".toList, portuguese), ("ro".toList, romanian),
    ("ru".toList, russian), ("sk".toList, slovak), ("sl".toList, slovenian),
    ("sr-Cyrl".toList, serbian), ("sr-Latn".toList, serbianLatin), ("sv".toList, swedish),
    ("ta".toList, tamil), ("te".toList, telugu), ("th".toList, thai), ("tlh".toList, klingon),
    ("tr".toList, turkish), ("tt".toList, tatar), ("uk".toList, ukrainian), ("ur".toList, urdu),
    ("uz".toList, uzbek), ("vi".toList, vietnamese), ("zh-CN".toList, chineseSimplified),
    ("zh-TW".toList, chineseTraditional)]

/-- The dialect of a locale code. -/
def get? (code : Text) : Option Dialect := table.lookup code

/-- The locale codes, in order. -/
def codes : List Text := table.map Prod.fst

/-- The locale code in force when nothing else is set. -/
def defaultCode : Text := "en".toList

end Gherkin.Dialect
