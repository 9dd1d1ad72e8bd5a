import TagExpr.Text.Property

/-!
# Scripts

The characters of some widely used scripts.
-/

namespace TagExpr.Text

/-- The script of a character, by the name of the script. -/
def scriptTable : RangeTable String := readTagged "
41-5A:Latin 61-7A:Latin AA:Latin BA:Latin C0-D6:Latin D8-F6:Latin F8-2B8:Latin 2E0-2E4:Latin
370-373:Greek 375-377:Greek 37A-37D:Greek 37F:Greek 384:Greek 386:Greek 388-38A:Greek 38C:Greek
38E-3A1:Greek 3A3-3E1:Greek 3F0-3FF:Greek 400-484:Cyrillic 487-52F:Cyrillic 531-556:Armenian
559-58A:Armenian 58D-58F:Armenian 591-5C7:Hebrew 5D0-5EA:Hebrew 5EF-5F4:Hebrew 600-604:Arabic
606-60B:Arabic 60D-61A:Arabic 61C-61E:Arabic 620-63F:Arabic 641-64A:Arabic 656-66F:Arabic
671-6DC:Arabic 6DE-6FF:Arabic 750-77F:Arabic 870-88E:Arabic 890-891:Arabic 898-8E1:Arabic
8E3-8FF:Arabic 900-950:Devanagari 955-963:Devanagari 966-97F:Devanagari E01-E3A:Thai E40-E5B:Thai
1100-11FF:Hangul 1C80-1C88:Cyrillic 1D00-1D25:Latin 1D26-1D2A:Greek 1D2B:Cyrillic 1D2C-1D5C:Latin
1D5D-1D61:Greek 1D62-1D65:Latin 1D66-1D6A:Greek 1D6B-1D77:Latin 1D78:Cyrillic 1D79-1DBE:Latin
1DBF:Greek 1E00-1EFF:Latin 1F00-1F15:Greek 1F18-1F1D:Greek 1F20-1F45:Greek 1F48-1F4D:Greek
1F50-1F57:Greek 1F59:Greek 1F5B:Greek 1F5D:Greek 1F5F-1F7D:Greek 1F80-1FB4:Greek 1FB6-1FC4:Greek
1FC6-1FD3:Greek 1FD6-1FDB:Greek 1FDD-1FEF:Greek 1FF2-1FF4:Greek 1FF6-1FFE:Greek 2071:Latin
207F:Latin 2090-209C:Latin 2126:Greek 212A-212B:Latin 2132:Latin 214E:Latin 2160-2188:Latin
2C60-2C7F:Latin 2DE0-2DFF:Cyrillic 2E80-2E99:Han 2E9B-2EF3:Han 2F00-2FD5:Han 3005:Han 3007:Han
3021-3029:Han 302E-302F:Hangul 3038-303B:Han 3041-3096:Hiragana 309D-309F:Hiragana
30A1-30FA:Katakana 30FD-30FF:Katakana 3131-318E:Hangul 31F0-31FF:Katakana 3200-321E:Hangul
3260-327E:Hangul 32D0-32FE:Katakana 3300-3357:Katakana 3400-4DBF:Han 4E00-9FFF:Han
A640-A69F:Cyrillic A722-A787:Latin A78B-A7CA:Latin A7D0-A7D1:Latin A7D3:Latin A7D5-A7D9:Latin
A7F2-A7FF:Latin A8E0-A8FF:Devanagari A960-A97C:Hangul AB30-AB5A:Latin AB5C-AB64:Latin AB65:Greek
AB66-AB69:Latin AC00-D7A3:Hangul D7B0-D7C6:Hangul D7CB-D7FB:Hangul F900-FA6D:Han FA70-FAD9:Han
FB00-FB06:Latin FB13-FB17:Armenian FB1D-FB36:Hebrew FB38-FB3C:Hebrew FB3E:Hebrew FB40-FB41:Hebrew
FB43-FB44:Hebrew FB46-FB4F:Hebrew FB50-FBC2:Arabic FBD3-FD3D:Arabic FD40-FD8F:Arabic
FD92-FDC7:Arabic FDCF:Arabic FDF0-FDFF:Arabic FE2E-FE2F:Cyrillic FE70-FE74:Arabic FE76-FEFC:Arabic
FF21-FF3A:Latin FF41-FF5A:Latin FF66-FF6F:Katakana FF71-FF9D:Katakana FFA0-FFBE:Hangul
FFC2-FFC7:Hangul FFCA-FFCF:Hangul FFD2-FFD7:Hangul FFDA-FFDC:Hangul 10140-1018E:Greek 101A0:Greek
10780-10785:Latin 10787-107B0:Latin 107B2-107BA:Latin 10E60-10E7E:Arabic 10EFD-10EFF:Arabic
11B00-11B09:Devanagari 16FE2-16FE3:Han 16FF0-16FF1:Han 1AFF0-1AFF3:Katakana 1AFF5-1AFFB:Katakana
1AFFD-1AFFE:Katakana 1B000:Katakana 1B001-1B11F:Hiragana 1B120-1B122:Katakana 1B132:Hiragana
1B150-1B152:Hiragana 1B155:Katakana 1B164-1B167:Katakana 1D200-1D245:Greek 1DF00-1DF1E:Latin
1DF25-1DF2A:Latin 1E030-1E06D:Cyrillic 1E08F:Cyrillic 1EE00-1EE03:Arabic 1EE05-1EE1F:Arabic
1EE21-1EE22:Arabic 1EE24:Arabic 1EE27:Arabic 1EE29-1EE32:Arabic 1EE34-1EE37:Arabic 1EE39:Arabic
1EE3B:Arabic 1EE42:Arabic 1EE47:Arabic 1EE49:Arabic 1EE4B:Arabic 1EE4D-1EE4F:Arabic
1EE51-1EE52:Arabic 1EE54:Arabic 1EE57:Arabic 1EE59:Arabic 1EE5B:Arabic 1EE5D:Arabic 1EE5F:Arabic
1EE61-1EE62:Arabic 1EE64:Arabic 1EE67-1EE6A:Arabic 1EE6C-1EE72:Arabic 1EE74-1EE77:Arabic
1EE79-1EE7C:Arabic 1EE7E:Arabic 1EE80-1EE89:Arabic 1EE8B-1EE9B:Arabic 1EEA1-1EEA3:Arabic
1EEA5-1EEA9:Arabic 1EEAB-1EEBB:Arabic 1EEF0-1EEF1:Arabic 1F200:Hiragana 20000-2A6DF:Han
2A700-2B739:Han 2B740-2B81D:Han 2B820-2CEA1:Han 2CEB0-2EBE0:Han 2F800-2FA1D:Han 30000-3134A:Han
31350-323AF:Han"

end TagExpr.Text
