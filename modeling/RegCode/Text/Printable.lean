import RegCode.Text.Sorted

/-!
# Printable characters

A character is printable if it is a letter, a mark, a number, a punctuation mark or a symbol by its
general category in version 17 of the Unicode character database, or the ASCII blank. The table lists
the runs of such characters, the blank apart, each as six hexadecimal digits for its first character
and six for its last, in order.
-/

set_option maxRecDepth 10000

namespace RegCode.Text

def printableRuns : Array Nat := #[
  0x00002100007E, 0x0000A10000AC, 0x0000AE000377, 0x00037A00037F, 0x00038400038A, 0x00038C00038C,
  0x00038E0003A1, 0x0003A300052F, 0x000531000556, 0x00055900058A, 0x00058D00058F, 0x0005910005C7,
  0x0005D00005EA, 0x0005EF0005F4, 0x00060600061B, 0x00061D0006DC, 0x0006DE00070D, 0x00071000074A,
  0x00074D0007B1, 0x0007C00007FA, 0x0007FD00082D, 0x00083000083E, 0x00084000085B, 0x00085E00085E,
  0x00086000086A, 0x00087000088F, 0x0008970008E1, 0x0008E3000983, 0x00098500098C, 0x00098F000990,
  0x0009930009A8, 0x0009AA0009B0, 0x0009B20009B2, 0x0009B60009B9, 0x0009BC0009C4, 0x0009C70009C8,
  0x0009CB0009CE, 0x0009D70009D7, 0x0009DC0009DD, 0x0009DF0009E3, 0x0009E60009FE, 0x000A01000A03,
  0x000A05000A0A, 0x000A0F000A10, 0x000A13000A28, 0x000A2A000A30, 0x000A32000A33, 0x000A35000A36,
  0x000A38000A39, 0x000A3C000A3C, 0x000A3E000A42, 0x000A47000A48, 0x000A4B000A4D, 0x000A51000A51,
  0x000A59000A5C, 0x000A5E000A5E, 0x000A66000A76, 0x000A81000A83, 0x000A85000A8D, 0x000A8F000A91,
  0x000A93000AA8, 0x000AAA000AB0, 0x000AB2000AB3, 0x000AB5000AB9, 0x000ABC000AC5, 0x000AC7000AC9,
  0x000ACB000ACD, 0x000AD0000AD0, 0x000AE0000AE3, 0x000AE6000AF1, 0x000AF9000AFF, 0x000B01000B03,
  0x000B05000B0C, 0x000B0F000B10, 0x000B13000B28, 0x000B2A000B30, 0x000B32000B33, 0x000B35000B39,
  0x000B3C000B44, 0x000B47000B48, 0x000B4B000B4D, 0x000B55000B57, 0x000B5C000B5D, 0x000B5F000B63,
  0x000B66000B77, 0x000B82000B83, 0x000B85000B8A, 0x000B8E000B90, 0x000B92000B95, 0x000B99000B9A,
  0x000B9C000B9C, 0x000B9E000B9F, 0x000BA3000BA4, 0x000BA8000BAA, 0x000BAE000BB9, 0x000BBE000BC2,
  0x000BC6000BC8, 0x000BCA000BCD, 0x000BD0000BD0, 0x000BD7000BD7, 0x000BE6000BFA, 0x000C00000C0C,
  0x000C0E000C10, 0x000C12000C28, 0x000C2A000C39, 0x000C3C000C44, 0x000C46000C48, 0x000C4A000C4D,
  0x000C55000C56, 0x000C58000C5A, 0x000C5C000C5D, 0x000C60000C63, 0x000C66000C6F, 0x000C77000C8C,
  0x000C8E000C90, 0x000C92000CA8, 0x000CAA000CB3, 0x000CB5000CB9, 0x000CBC000CC4, 0x000CC6000CC8,
  0x000CCA000CCD, 0x000CD5000CD6, 0x000CDC000CDE, 0x000CE0000CE3, 0x000CE6000CEF, 0x000CF1000CF3,
  0x000D00000D0C, 0x000D0E000D10, 0x000D12000D44, 0x000D46000D48, 0x000D4A000D4F, 0x000D54000D63,
  0x000D66000D7F, 0x000D81000D83, 0x000D85000D96, 0x000D9A000DB1, 0x000DB3000DBB, 0x000DBD000DBD,
  0x000DC0000DC6, 0x000DCA000DCA, 0x000DCF000DD4, 0x000DD6000DD6, 0x000DD8000DDF, 0x000DE6000DEF,
  0x000DF2000DF4, 0x000E01000E3A, 0x000E3F000E5B, 0x000E81000E82, 0x000E84000E84, 0x000E86000E8A,
  0x000E8C000EA3, 0x000EA5000EA5, 0x000EA7000EBD, 0x000EC0000EC4, 0x000EC6000EC6, 0x000EC8000ECE,
  0x000ED0000ED9, 0x000EDC000EDF, 0x000F00000F47, 0x000F49000F6C, 0x000F71000F97, 0x000F99000FBC,
  0x000FBE000FCC, 0x000FCE000FDA, 0x0010000010C5, 0x0010C70010C7, 0x0010CD0010CD, 0x0010D0001248,
  0x00124A00124D, 0x001250001256, 0x001258001258, 0x00125A00125D, 0x001260001288, 0x00128A00128D,
  0x0012900012B0, 0x0012B20012B5, 0x0012B80012BE, 0x0012C00012C0, 0x0012C20012C5, 0x0012C80012D6,
  0x0012D8001310, 0x001312001315, 0x00131800135A, 0x00135D00137C, 0x001380001399, 0x0013A00013F5,
  0x0013F80013FD, 0x00140000167F, 0x00168100169C, 0x0016A00016F8, 0x001700001715, 0x00171F001736,
  0x001740001753, 0x00176000176C, 0x00176E001770, 0x001772001773, 0x0017800017DD, 0x0017E00017E9,
  0x0017F00017F9, 0x00180000180D, 0x00180F001819, 0x001820001878, 0x0018800018AA, 0x0018B00018F5,
  0x00190000191E, 0x00192000192B, 0x00193000193B, 0x001940001940, 0x00194400196D, 0x001970001974,
  0x0019800019AB, 0x0019B00019C9, 0x0019D00019DA, 0x0019DE001A1B, 0x001A1E001A5E, 0x001A60001A7C,
  0x001A7F001A89, 0x001A90001A99, 0x001AA0001AAD, 0x001AB0001ADD, 0x001AE0001AEB, 0x001B00001B4C,
  0x001B4E001BF3, 0x001BFC001C37, 0x001C3B001C49, 0x001C4D001C8A, 0x001C90001CBA, 0x001CBD001CC7,
  0x001CD0001CFA, 0x001D00001F15, 0x001F18001F1D, 0x001F20001F45, 0x001F48001F4D, 0x001F50001F57,
  0x001F59001F59, 0x001F5B001F5B, 0x001F5D001F5D, 0x001F5F001F7D, 0x001F80001FB4, 0x001FB6001FC4,
  0x001FC6001FD3, 0x001FD6001FDB, 0x001FDD001FEF, 0x001FF2001FF4, 0x001FF6001FFE, 0x002010002027,
  0x00203000205E, 0x002070002071, 0x00207400208E, 0x00209000209C, 0x0020A00020C1, 0x0020D00020F0,
  0x00210000218B, 0x002190002429, 0x00244000244A, 0x002460002B73, 0x002B76002CF3, 0x002CF9002D25,
  0x002D27002D27, 0x002D2D002D2D, 0x002D30002D67, 0x002D6F002D70, 0x002D7F002D96, 0x002DA0002DA6,
  0x002DA8002DAE, 0x002DB0002DB6, 0x002DB8002DBE, 0x002DC0002DC6, 0x002DC8002DCE, 0x002DD0002DD6,
  0x002DD8002DDE, 0x002DE0002E5D, 0x002E80002E99, 0x002E9B002EF3, 0x002F00002FD5, 0x002FF0002FFF,
  0x00300100303F, 0x003041003096, 0x0030990030FF, 0x00310500312F, 0x00313100318E, 0x0031900031E5,
  0x0031EF00321E, 0x00322000A48C, 0x00A49000A4C6, 0x00A4D000A62B, 0x00A64000A6F7, 0x00A70000A7DC,
  0x00A7F100A82C, 0x00A83000A839, 0x00A84000A877, 0x00A88000A8C5, 0x00A8CE00A8D9, 0x00A8E000A953,
  0x00A95F00A97C, 0x00A98000A9CD, 0x00A9CF00A9D9, 0x00A9DE00A9FE, 0x00AA0000AA36, 0x00AA4000AA4D,
  0x00AA5000AA59, 0x00AA5C00AAC2, 0x00AADB00AAF6, 0x00AB0100AB06, 0x00AB0900AB0E, 0x00AB1100AB16,
  0x00AB2000AB26, 0x00AB2800AB2E, 0x00AB3000AB6B, 0x00AB7000ABED, 0x00ABF000ABF9, 0x00AC0000D7A3,
  0x00D7B000D7C6, 0x00D7CB00D7FB, 0x00F90000FA6D, 0x00FA7000FAD9, 0x00FB0000FB06, 0x00FB1300FB17,
  0x00FB1D00FB36, 0x00FB3800FB3C, 0x00FB3E00FB3E, 0x00FB4000FB41, 0x00FB4300FB44, 0x00FB4600FDCF,
  0x00FDF000FE19, 0x00FE2000FE52, 0x00FE5400FE66, 0x00FE6800FE6B, 0x00FE7000FE74, 0x00FE7600FEFC,
  0x00FF0100FFBE, 0x00FFC200FFC7, 0x00FFCA00FFCF, 0x00FFD200FFD7, 0x00FFDA00FFDC, 0x00FFE000FFE6,
  0x00FFE800FFEE, 0x00FFFC00FFFD, 0x01000001000B, 0x01000D010026, 0x01002801003A, 0x01003C01003D,
  0x01003F01004D, 0x01005001005D, 0x0100800100FA, 0x010100010102, 0x010107010133, 0x01013701018E,
  0x01019001019C, 0x0101A00101A0, 0x0101D00101FD, 0x01028001029C, 0x0102A00102D0, 0x0102E00102FB,
  0x010300010323, 0x01032D01034A, 0x01035001037A, 0x01038001039D, 0x01039F0103C3, 0x0103C80103D5,
  0x01040001049D, 0x0104A00104A9, 0x0104B00104D3, 0x0104D80104FB, 0x010500010527, 0x010530010563,
  0x01056F01057A, 0x01057C01058A, 0x01058C010592, 0x010594010595, 0x0105970105A1, 0x0105A30105B1,
  0x0105B30105B9, 0x0105BB0105BC, 0x0105C00105F3, 0x010600010736, 0x010740010755, 0x010760010767,
  0x010780010785, 0x0107870107B0, 0x0107B20107BA, 0x010800010805, 0x010808010808, 0x01080A010835,
  0x010837010838, 0x01083C01083C, 0x01083F010855, 0x01085701089E, 0x0108A70108AF, 0x0108E00108F2,
  0x0108F40108F5, 0x0108FB01091B, 0x01091F010939, 0x01093F010959, 0x0109800109B7, 0x0109BC0109CF,
  0x0109D2010A03, 0x010A05010A06, 0x010A0C010A13, 0x010A15010A17, 0x010A19010A35, 0x010A38010A3A,
  0x010A3F010A48, 0x010A50010A58, 0x010A60010A9F, 0x010AC0010AE6, 0x010AEB010AF6, 0x010B00010B35,
  0x010B39010B55, 0x010B58010B72, 0x010B78010B91, 0x010B99010B9C, 0x010BA9010BAF, 0x010C00010C48,
  0x010C80010CB2, 0x010CC0010CF2, 0x010CFA010D27, 0x010D30010D39, 0x010D40010D65, 0x010D69010D85,
  0x010D8E010D8F, 0x010E60010E7E, 0x010E80010EA9, 0x010EAB010EAD, 0x010EB0010EB1, 0x010EC2010EC7,
  0x010ED0010ED8, 0x010EFA010F27, 0x010F30010F59, 0x010F70010F89, 0x010FB0010FCB, 0x010FE0010FF6,
  0x01100001104D, 0x011052011075, 0x01107F0110BC, 0x0110BE0110C2, 0x0110D00110E8, 0x0110F00110F9,
  0x011100011134, 0x011136011147, 0x011150011176, 0x0111800111DF, 0x0111E10111F4, 0x011200011211,
  0x011213011241, 0x011280011286, 0x011288011288, 0x01128A01128D, 0x01128F01129D, 0x01129F0112A9,
  0x0112B00112EA, 0x0112F00112F9, 0x011300011303, 0x01130501130C, 0x01130F011310, 0x011313011328,
  0x01132A011330, 0x011332011333, 0x011335011339, 0x01133B011344, 0x011347011348, 0x01134B01134D,
  0x011350011350, 0x011357011357, 0x01135D011363, 0x01136601136C, 0x011370011374, 0x011380011389,
  0x01138B01138B, 0x01138E01138E, 0x0113900113B5, 0x0113B70113C0, 0x0113C20113C2, 0x0113C50113C5,
  0x0113C70113CA, 0x0113CC0113D5, 0x0113D70113D8, 0x0113E10113E2, 0x01140001145B, 0x01145D011461,
  0x0114800114C7, 0x0114D00114D9, 0x0115800115B5, 0x0115B80115DD, 0x011600011644, 0x011650011659,
  0x01166001166C, 0x0116800116B9, 0x0116C00116C9, 0x0116D00116E3, 0x01170001171A, 0x01171D01172B,
  0x011730011746, 0x01180001183B, 0x0118A00118F2, 0x0118FF011906, 0x011909011909, 0x01190C011913,
  0x011915011916, 0x011918011935, 0x011937011938, 0x01193B011946, 0x011950011959, 0x0119A00119A7,
  0x0119AA0119D7, 0x0119DA0119E4, 0x011A00011A47, 0x011A50011AA2, 0x011AB0011AF8, 0x011B00011B09,
  0x011B60011B67, 0x011BC0011BE1, 0x011BF0011BF9, 0x011C00011C08, 0x011C0A011C36, 0x011C38011C45,
  0x011C50011C6C, 0x011C70011C8F, 0x011C92011CA7, 0x011CA9011CB6, 0x011D00011D06, 0x011D08011D09,
  0x011D0B011D36, 0x011D3A011D3A, 0x011D3C011D3D, 0x011D3F011D47, 0x011D50011D59, 0x011D60011D65,
  0x011D67011D68, 0x011D6A011D8E, 0x011D90011D91, 0x011D93011D98, 0x011DA0011DA9, 0x011DB0011DDB,
  0x011DE0011DE9, 0x011EE0011EF8, 0x011F00011F10, 0x011F12011F3A, 0x011F3E011F5A, 0x011FB0011FB0,
  0x011FC0011FF1, 0x011FFF012399, 0x01240001246E, 0x012470012474, 0x012480012543, 0x012F90012FF2,
  0x01300001342F, 0x013440013455, 0x0134600143FA, 0x014400014646, 0x016100016139, 0x016800016A38,
  0x016A40016A5E, 0x016A60016A69, 0x016A6E016ABE, 0x016AC0016AC9, 0x016AD0016AED, 0x016AF0016AF5,
  0x016B00016B45, 0x016B50016B59, 0x016B5B016B61, 0x016B63016B77, 0x016B7D016B8F, 0x016D40016D79,
  0x016E40016E9A, 0x016EA0016EB8, 0x016EBB016ED3, 0x016F00016F4A, 0x016F4F016F87, 0x016F8F016F9F,
  0x016FE0016FE4, 0x016FF0016FF6, 0x017000018CD5, 0x018CFF018D1E, 0x018D80018DF2, 0x01AFF001AFF3,
  0x01AFF501AFFB, 0x01AFFD01AFFE, 0x01B00001B122, 0x01B13201B132, 0x01B15001B152, 0x01B15501B155,
  0x01B16401B167, 0x01B17001B2FB, 0x01BC0001BC6A, 0x01BC7001BC7C, 0x01BC8001BC88, 0x01BC9001BC99,
  0x01BC9C01BC9F, 0x01CC0001CCFC, 0x01CD0001CEB3, 0x01CEBA01CED0, 0x01CEE001CEF0, 0x01CF0001CF2D,
  0x01CF3001CF46, 0x01CF5001CFC3, 0x01D00001D0F5, 0x01D10001D126, 0x01D12901D172, 0x01D17B01D1EA,
  0x01D20001D245, 0x01D2C001D2D3, 0x01D2E001D2F3, 0x01D30001D356, 0x01D36001D378, 0x01D40001D454,
  0x01D45601D49C, 0x01D49E01D49F, 0x01D4A201D4A2, 0x01D4A501D4A6, 0x01D4A901D4AC, 0x01D4AE01D4B9,
  0x01D4BB01D4BB, 0x01D4BD01D4C3, 0x01D4C501D505, 0x01D50701D50A, 0x01D50D01D514, 0x01D51601D51C,
  0x01D51E01D539, 0x01D53B01D53E, 0x01D54001D544, 0x01D54601D546, 0x01D54A01D550, 0x01D55201D6A5,
  0x01D6A801D7CB, 0x01D7CE01DA8B, 0x01DA9B01DA9F, 0x01DAA101DAAF, 0x01DF0001DF1E, 0x01DF2501DF2A,
  0x01E00001E006, 0x01E00801E018, 0x01E01B01E021, 0x01E02301E024, 0x01E02601E02A, 0x01E03001E06D,
  0x01E08F01E08F, 0x01E10001E12C, 0x01E13001E13D, 0x01E14001E149, 0x01E14E01E14F, 0x01E29001E2AE,
  0x01E2C001E2F9, 0x01E2FF01E2FF, 0x01E4D001E4F9, 0x01E5D001E5FA, 0x01E5FF01E5FF, 0x01E6C001E6DE,
  0x01E6E001E6F5, 0x01E6FE01E6FF, 0x01E7E001E7E6, 0x01E7E801E7EB, 0x01E7ED01E7EE, 0x01E7F001E7FE,
  0x01E80001E8C4, 0x01E8C701E8D6, 0x01E90001E94B, 0x01E95001E959, 0x01E95E01E95F, 0x01EC7101ECB4,
  0x01ED0101ED3D, 0x01EE0001EE03, 0x01EE0501EE1F, 0x01EE2101EE22, 0x01EE2401EE24, 0x01EE2701EE27,
  0x01EE2901EE32, 0x01EE3401EE37, 0x01EE3901EE39, 0x01EE3B01EE3B, 0x01EE4201EE42, 0x01EE4701EE47,
  0x01EE4901EE49, 0x01EE4B01EE4B, 0x01EE4D01EE4F, 0x01EE5101EE52, 0x01EE5401EE54, 0x01EE5701EE57,
  0x01EE5901EE59, 0x01EE5B01EE5B, 0x01EE5D01EE5D, 0x01EE5F01EE5F, 0x01EE6101EE62, 0x01EE6401EE64,
  0x01EE6701EE6A, 0x01EE6C01EE72, 0x01EE7401EE77, 0x01EE7901EE7C, 0x01EE7E01EE7E, 0x01EE8001EE89,
  0x01EE8B01EE9B, 0x01EEA101EEA3, 0x01EEA501EEA9, 0x01EEAB01EEBB, 0x01EEF001EEF1, 0x01F00001F02B,
  0x01F03001F093, 0x01F0A001F0AE, 0x01F0B101F0BF, 0x01F0C101F0CF, 0x01F0D101F0F5, 0x01F10001F1AD,
  0x01F1E601F202, 0x01F21001F23B, 0x01F24001F248, 0x01F25001F251, 0x01F26001F265, 0x01F30001F6D8,
  0x01F6DC01F6EC, 0x01F6F001F6FC, 0x01F70001F7D9, 0x01F7E001F7EB, 0x01F7F001F7F0, 0x01F80001F80B,
  0x01F81001F847, 0x01F85001F859, 0x01F86001F887, 0x01F89001F8AD, 0x01F8B001F8BB, 0x01F8C001F8C1,
  0x01F8D001F8D8, 0x01F90001FA57, 0x01FA6001FA6D, 0x01FA7001FA7C, 0x01FA8001FA8A, 0x01FA8E01FAC6,
  0x01FAC801FAC8, 0x01FACD01FADC, 0x01FADF01FAEA, 0x01FAEF01FAF8, 0x01FB0001FB92, 0x01FB9401FBFA,
  0x02000002A6DF, 0x02A70002B81D, 0x02B82002CEAD, 0x02CEB002EBE0, 0x02EBF002EE5D, 0x02F80002FA1D,
  0x03000003134A, 0x031350033479, 0x0E01000E01EF]

def isPrintable (c : Char) : Bool :=
  c == ' ' ||
    (Sorted.find printableRuns (fun e => (e / 0x1000000, e % 0x1000000)) c.toNat).isSome

end RegCode.Text
